import Mathlib.Data.List.Dedup
import Mathlib.Data.List.Lex
import Mathlib.Data.List.Sort
import Thingino.Lib.CString

/-! `sort -u`.

The lines of one kind are sorted on their own, whatever stands between them (`filter_sortUnique`). -/
namespace Thingino.Lib

section SortUnique
variable {α : Type} [DecidableEq α] (r : α → α → Prop) [DecidableRel r]

def sortUnique (l : List α) : List α := l.dedup.insertionSort r

variable {r} {l : List α}

@[simp] theorem mem_sortUnique {a : α} : a ∈ sortUnique r l ↔ a ∈ l := by
  rw [sortUnique, List.mem_insertionSort, List.mem_dedup]

theorem nodup_sortUnique (l : List α) : (sortUnique r l).Nodup :=
  (List.perm_insertionSort r _).nodup_iff.mpr (List.nodup_dedup l)

theorem length_sortUnique (l : List α) : (sortUnique r l).length = l.dedup.length := List.length_insertionSort r _

/-- One line, or none, is sorted. -/
theorem sortUnique_of_length (h : l.length ≤ 1) : sortUnique r l = l := by
  match l, h with
  | [], _ => rfl
  | [_], _ => rfl

theorem sortUnique_eq_nil_iff : sortUnique r l = [] ↔ l = [] := by
  simp only [List.eq_nil_iff_forall_not_mem, mem_sortUnique]

variable [Std.Total r] [IsTrans α r] [Std.Antisymm r]

theorem sortUnique_sortUnique (l : List α) : sortUnique r (sortUnique r l) = sortUnique r l := by
  have hperm : (sortUnique r (sortUnique r l)).Perm (sortUnique r l) := by
    refine (List.perm_ext_iff_of_nodup (nodup_sortUnique _) (nodup_sortUnique _)).mpr fun a => ?_
    rw [mem_sortUnique]
  exact hperm.eq_of_pairwise' (List.pairwise_insertionSort r _) (List.pairwise_insertionSort r _)

theorem filter_sortUnique (p : α → Bool) (l : List α) : (sortUnique r l).filter p = sortUnique r (l.filter p) := by
  have hperm : ((sortUnique r l).filter p).Perm (sortUnique r (l.filter p)) := by
    refine (List.perm_ext_iff_of_nodup ((nodup_sortUnique l).filter p) (nodup_sortUnique _)).mpr fun a => ?_
    rw [List.mem_filter, mem_sortUnique, mem_sortUnique, List.mem_filter]
  exact hperm.eq_of_pairwise' ((List.pairwise_insertionSort r _).filter p) (List.pairwise_insertionSort r _)

end SortUnique

/-- The order of the lines, byte by byte. -/
def lineLe (a b : List Byte) : Prop := a.map BitVec.toNat ≤ b.map BitVec.toNat

instance : DecidableRel lineLe := fun a b => inferInstanceAs (Decidable (a.map BitVec.toNat ≤ b.map BitVec.toNat))

instance : Std.Total lineLe := ⟨fun a b => le_total (a.map BitVec.toNat) (b.map BitVec.toNat)⟩

instance : IsTrans (List Byte) lineLe := ⟨fun _ _ _ hab hbc => le_trans hab hbc⟩

instance : Std.Antisymm lineLe := ⟨fun _ _ hab hba =>
  List.map_injective_iff.mpr (fun _ _ h => BitVec.eq_of_toNat_eq h) (le_antisymm hab hba)⟩

end Thingino.Lib
