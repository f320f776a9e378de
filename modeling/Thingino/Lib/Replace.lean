import Mathlib.Data.Option.Basic

/-! A file that is replaced by renaming another one over it, with power cuts.

A file's data reaches the flash with a `sync`, and so does a rename. Until then a power cut may leave any
data, and the name may still stand for the file that it stood for before. `Disk.leaves` says what a power cut
can leave under the name; without a cut it is what is read. `Disk.Keeps` collects what all of it satisfies,
and has one rule for each operation. -/
namespace Thingino.Lib

structure Node (α : Type) where
  data : α
  synced : Bool

/-- The file under the name and the one beside it; `before` is the file that the name may go back to. -/
structure Disk (α : Type) where
  live : Option (Node α)
  temp : Option (Node α)
  before : Option (Option (Node α))

variable {α : Type}

/-- What a power cut can leave of a file. -/
def Node.leaves (n : Option (Node α)) (c : Option α) : Prop :=
  match n with
  | none => c = none
  | some n => ∃ d, c = some d ∧ (n.synced = true → d = n.data)

namespace Disk

/-- What is read under the name. -/
def content (d : Disk α) : Option α := d.live.map Node.data

def leaves (d : Disk α) (c : Option α) : Prop := Node.leaves d.live c ∨ ∃ old, d.before = some old ∧ Node.leaves old c

/-- The file beside is written, or removed. -/
def setTemp (d : Disk α) (t : Option (Node α)) : Disk α := { d with temp := t }

def sync (d : Disk α) : Disk α :=
  ⟨d.live.map (⟨·.data, true⟩), d.temp.map (⟨·.data, true⟩), none⟩

def rename (d : Disk α) : Disk α := ⟨d.temp, none, some d.live⟩

/-- All that is read, now or after a power cut, satisfies `P`. -/
def Keeps (P : Option α → Prop) (d : Disk α) : Prop := ∀ c, d.leaves c → P c

variable {P : Option α → Prop} {d : Disk α}

theorem leaves_content (d : Disk α) : d.leaves d.content := by
  refine .inl ?_
  unfold content Node.leaves
  cases d.live with
  | none => rfl
  | some n => exact ⟨n.data, rfl, fun _ => rfl⟩

theorem Keeps.content (h : d.Keeps P) : P d.content := h _ d.leaves_content

theorem Keeps.setTemp (h : d.Keeps P) (t : Option (Node α)) : (d.setTemp t).Keeps P := h

theorem leaves_synced (n : Option (Node α)) {c : Option α} (h : Node.leaves (n.map (⟨·.data, true⟩)) c) :
    Node.leaves n c := by
  cases n with
  | none => exact h
  | some n =>
    obtain ⟨x, hc, hdata⟩ := h
    exact ⟨x, hc, fun _ => hdata rfl⟩

theorem Keeps.sync (h : d.Keeps P) : d.sync.Keeps P := by
  rintro c (hlive | ⟨old, hold, -⟩)
  · exact h c (.inl (leaves_synced d.live hlive))
  · cases hold

/-- The file that is renamed has been synced. -/
theorem Keeps.rename (h : d.Keeps P) {x : α} (htemp : d.temp = some ⟨x, true⟩) (hx : P (some x)) :
    d.rename.Keeps P := by
  rintro c (hlive | ⟨old, hold, hleaves⟩)
  · rw [Disk.rename, htemp] at hlive
    obtain ⟨y, rfl, hdata⟩ := hlive
    exact hdata rfl ▸ hx
  · cases hold
    exact h c (.inl hleaves)

end Disk

end Thingino.Lib
