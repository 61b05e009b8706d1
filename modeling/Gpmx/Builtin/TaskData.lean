import Mathlib

/-!
# The data of a task

`gpm/modules/builtin/builtin_app.c`: how `built_task_spawn` lays out the block that it hands to the
thread of a task. The strings follow the structure, and `argv` points to them.
-/

namespace Gpmx.Builtin

open List

abbrev CString := { s : List UInt8 // 0 ∉ s }

/-- `build_pthdata_t`; a pointer of `argv` is an offset into the strings behind the structure. -/
structure BuildPthdata where
  name : List UInt8
  argc : Nat
  argv : List (Option Nat)
  strings : List UInt8
  deriving DecidableEq

def strlen (s : CString) : Nat := s.1.length

def lenOf (ss : List CString) : Nat := (ss.map fun s => strlen s + 1).sum

/-- `strcpy` to an offset; there is none where the string does not fit. -/
def strcpy (strings : List UInt8) (offset : Nat) (s : CString) : Option (List UInt8) :=
  if offset + strlen s + 1 ≤ strings.length then
    some (strings.take offset ++ (s.1 ++ [0]) ++ strings.drop (offset + strlen s + 1))
  else none

/-- The strings that are copied one after the other, `argv[i]` being the next pointer. -/
def copyStrings (data : BuildPthdata) (i offset : Nat) : List CString → Option BuildPthdata
  | [] => some data
  | s :: ss =>
    (strcpy data.strings offset s).bind fun strings =>
      copyStrings { data with argv := data.argv.set i (some offset), strings } (i + 1)
        (offset + strlen s + 1) ss

/-- The block of `built_task_spawn`, from `memset` on. -/
def buildPthdata (name : CString) (argv : List CString) : Option BuildPthdata :=
  let argc := argv.length
  let taskdata : BuildPthdata :=
    { name := (name.1 ++ List.replicate 16 0).take 15 ++ [0]
      argc := argc + 1
      argv := List.replicate (argc + 2) none
      strings := List.replicate (lenOf (name :: argv)) 0 }
  (copyStrings taskdata 0 0 (name :: argv)).map fun data =>
    { data with argv := data.argv.set (argc + 1) none }

def stringAt (strings : List UInt8) (offset : Nat) : List UInt8 :=
  (strings.drop offset).takeWhile (· ≠ 0)

def BuildPthdata.vector (data : BuildPthdata) : List (Option (List UInt8)) :=
  data.argv.map (Option.map (stringAt data.strings))

/-! ## What is laid out -/

def laid (ss : List CString) : List UInt8 := ss.flatMap fun s => s.1 ++ [0]

def offsets (offset : Nat) : List CString → List Nat
  | [] => []
  | s :: ss => offset :: offsets (offset + strlen s + 1) ss

theorem laid_append (ss : List CString) (s : CString) : laid (ss ++ [s]) = laid ss ++ (s.1 ++ [0]) := by
  simp [laid]

theorem lenOf_cons (s : CString) (ss : List CString) : lenOf (s :: ss) = strlen s + 1 + lenOf ss := by
  simp [lenOf]

theorem strcpy_laid (pre : List CString) (s : CString) (n : Nat) :
    strcpy (laid pre ++ List.replicate (strlen s + 1 + n) 0) (laid pre).length s =
      some (laid (pre ++ [s]) ++ List.replicate n 0) := by
  unfold strcpy
  rw [if_pos (by simp; omega), take_left, Nat.add_assoc, drop_append, laid_append]
  simp

theorem copyStrings_laid (name : List UInt8) (argc : Nat) (ss : List CString) :
    ∀ (pre : List CString) (done : List (Option Nat)),
      copyStrings
        { name, argc
          argv := done ++ List.replicate (ss.length + 1) none
          strings := laid pre ++ List.replicate (lenOf ss) 0 }
        done.length (laid pre).length ss =
      some
        { name, argc
          argv := done ++ (offsets (laid pre).length ss).map some ++ [none]
          strings := laid (pre ++ ss) } := by
  induction ss with
  | nil =>
    intro pre done
    simp [copyStrings, offsets, lenOf]
  | cons s ss ih =>
    intro pre done
    unfold copyStrings
    rw [lenOf_cons, strcpy_laid]
    have hset : (done ++ List.replicate ((s :: ss).length + 1) none).set done.length (some (laid pre).length) =
        (done ++ [some (laid pre).length]) ++ List.replicate (ss.length + 1) none := by
      rw [set_append_right _ _ (Nat.le_refl _), Nat.sub_self, length_cons, replicate_succ,
        set_cons_zero]
      simp
    have hnext := ih (pre ++ [s]) (done ++ [some (laid pre).length])
    have hoffset : (laid (pre ++ [s])).length = (laid pre).length + strlen s + 1 := by
      rw [laid_append]
      simp [strlen]
      omega
    rw [hoffset, length_append] at hnext
    dsimp only [Option.bind_some]
    rw [hset]
    refine hnext.trans ?_
    simp [offsets]

theorem stringAt_laid (pre : List CString) (s : CString) (rest : List UInt8) :
    stringAt (laid (pre ++ [s]) ++ rest) (laid pre).length = s.1 := by
  unfold stringAt
  rw [laid_append, append_assoc, drop_left, append_assoc, takeWhile_append_of_pos]
  · simp
  · intro c hc
    have hne : c ≠ 0 := by
      rintro rfl
      exact s.2 hc
    simpa using hne

theorem map_stringAt_offsets (ss : List CString) : ∀ pre : List CString,
    (offsets (laid pre).length ss).map (stringAt (laid (pre ++ ss))) = ss.map Subtype.val := by
  induction ss with
  | nil => exact fun _ => rfl
  | cons s ss ih =>
    intro pre
    have hall : laid (pre ++ s :: ss) = laid (pre ++ [s]) ++ laid ss := by
      simp [laid]
    have hoffset : (laid pre).length + strlen s + 1 = (laid (pre ++ [s])).length := by
      rw [laid_append]
      simp [strlen]
      omega
    have hnext := ih (pre ++ [s])
    rw [append_assoc, singleton_append] at hnext
    unfold offsets
    rw [map_cons, map_cons, hoffset, hnext]
    rw [hall, stringAt_laid]

/-- **The vector of a task**: its name, copies of the arguments and a null pointer. -/
theorem buildPthdata_vector (name : CString) (argv : List CString) :
    ∃ data, buildPthdata name argv = some data ∧ data.argc = argv.length + 1 ∧
      data.vector = (name :: argv).map (fun s => some s.1) ++ [none] := by
  have hcopy := copyStrings_laid ((name.1 ++ List.replicate 16 0).take 15 ++ [0]) (argv.length + 1) (name :: argv)
    [] []
  have hstrings : (offsets 0 (name :: argv)).map (stringAt (laid (name :: argv))) =
      (name :: argv).map Subtype.val := map_stringAt_offsets (name :: argv) []
  have hlength : (offsets 0 (name :: argv)).length = argv.length + 1 := by
    rw [← length_map (stringAt (laid (name :: argv))), hstrings]
    simp
  have hend : ((offsets 0 (name :: argv)).map some ++ [none]).set (argv.length + 1) none =
      (offsets 0 (name :: argv)).map some ++ [none] := by
    rw [set_append_right _ _ (by simp [hlength])]
    simp [hlength]
  unfold buildPthdata
  dsimp only
  refine ⟨_, (congrArg _ hcopy).trans rfl, rfl, ?_⟩
  show List.map (Option.map (stringAt (laid (name :: argv))))
    (((offsets 0 (name :: argv)).map some ++ [none]).set (argv.length + 1) none) = _
  have hvector : ((offsets 0 (name :: argv)).map some).map (Option.map (stringAt (laid (name :: argv)))) =
      ((offsets 0 (name :: argv)).map (stringAt (laid (name :: argv)))).map some := by
    rw [map_map, map_map]
    rfl
  rw [hend, map_append, hvector, hstrings, map_map]
  rfl

end Gpmx.Builtin
