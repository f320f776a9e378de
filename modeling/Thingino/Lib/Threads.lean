import Mathlib.Data.List.Basic

/-! Threads that share a state.

A thread is of some kind and has a list of operations before it. The first of these, when it is its turn,
works on the shared state in one go, may put other operations in front of the rest, and may fork threads;
a blocked operation does nothing. Threads are numbered in the order of their creation. -/
namespace Thingino.Lib

structure Thread (κ ω : Type) where
  kind : κ
  ops : List ω

/-- What an operation leaves: the shared state, what is to be done before the rest, and the forked threads. -/
structure Outcome (σ κ ω : Type) where
  shared : σ
  more : List ω
  forked : List (Thread κ ω)

structure Pool (σ κ ω : Type) where
  shared : σ
  threads : List (Thread κ ω)

namespace Pool

variable {σ κ ω : Type}

/-- The thread `t` runs its first operation. `exec` is also told how many threads there are: the number
of the next one. -/
def run (exec : Nat → ω → σ → Option (Outcome σ κ ω)) (s : Pool σ κ ω) (t : Nat) : Option (Pool σ κ ω) :=
  match s.threads[t]? with
  | some ⟨kind, op :: rest⟩ =>
    (exec s.threads.length op s.shared).map fun o =>
      ⟨o.shared, s.threads.set t ⟨kind, o.more ++ rest⟩ ++ o.forked⟩
  | _ => none

/-- A thread is added from outside. -/
def fork (s : Pool σ κ ω) (thread : Thread κ ω) : Pool σ κ ω := { s with threads := s.threads ++ [thread] }

variable {exec : Nat → ω → σ → Option (Outcome σ κ ω)} {s s' : Pool σ κ ω} {t : Nat}
  {P : Thread κ ω → Prop}

theorem run_eq_some (h : s.run exec t = some s') :
    ∃ kind op rest o, s.threads[t]? = some ⟨kind, op :: rest⟩ ∧
      exec s.threads.length op s.shared = some o ∧
      s' = ⟨o.shared, s.threads.set t ⟨kind, o.more ++ rest⟩ ++ o.forked⟩ := by
  unfold run at h
  split at h
  · rename_i kind op rest hthread
    obtain ⟨o, ho, rfl⟩ := Option.map_eq_some_iff.mp h
    exact ⟨kind, op, rest, o, hthread, ho, rfl⟩
  · cases h

/-- What holds of all threads still does, if it does of what the thread that ran has left and of those it
forked. -/
theorem forall_run {old new : Thread κ ω} {threads forked : List (Thread κ ω)} (h : ∀ th ∈ threads, P th)
    (hold : threads[t]? = some old) (hnew : P old → P new) (hforked : ∀ th ∈ forked, P th) :
    ∀ th ∈ threads.set t new ++ forked, P th := by
  intro th hth
  obtain hth | hth := List.mem_append.mp hth
  · obtain hth | rfl := List.mem_or_eq_of_mem_set hth
    · exact h th hth
    · exact hnew (h old (List.mem_of_getElem? hold))
  · exact hforked th hth

/-- Some thread still has a property, if the one that ran has kept it. -/
theorem exists_run {old new : Thread κ ω} {threads : List (Thread κ ω)} (forked : List (Thread κ ω))
    (h : ∃ th ∈ threads, P th) (hold : threads[t]? = some old) (hnew : P old → P new) :
    ∃ th ∈ threads.set t new ++ forked, P th := by
  obtain ⟨th, hth, hP⟩ := h
  obtain ⟨i, hi⟩ := List.mem_iff_getElem?.mp hth
  by_cases hit : i = t
  · subst hit
    obtain rfl := Option.some.inj (hold.symm.trans hi)
    exact ⟨new, List.mem_append_left _ (List.mem_set (List.getElem?_eq_some_iff.mp hold).1 new), hnew hP⟩
  · refine ⟨th, List.mem_append_left _ (List.mem_of_getElem? (i := i) ?_), hP⟩
    rw [List.getElem?_set_ne (Ne.symm hit), hi]

/-- The thread that ran has a property now. -/
theorem exists_run_self {old new : Thread κ ω} {threads : List (Thread κ ω)} (forked : List (Thread κ ω))
    (hold : threads[t]? = some old) (hnew : P new) : ∃ th ∈ threads.set t new ++ forked, P th :=
  ⟨new, List.mem_append_left _ (List.mem_set (List.getElem?_eq_some_iff.mp hold).1 new), hnew⟩

/-- A thread after a run: the one that ran, one that was there, or a forked one. -/
theorem getElem?_run {i : Nat} {new th : Thread κ ω} {threads forked : List (Thread κ ω)}
    (h : (threads.set t new ++ forked)[i]? = some th) :
    (i = t ∧ th = new) ∨ (i ≠ t ∧ threads[i]? = some th) ∨ th ∈ forked := by
  rw [List.getElem?_append] at h
  split at h
  · by_cases hit : i = t
    · subst hit
      rw [List.getElem?_set_self'] at h
      obtain ⟨_, -, heq⟩ := Option.map_eq_some_iff.mp h
      exact .inl ⟨rfl, heq.symm⟩
    · rw [List.getElem?_set_ne (Ne.symm hit)] at h
      exact .inr (.inl ⟨hit, h⟩)
  · exact .inr (.inr (List.mem_of_getElem? h))

end Pool

end Thingino.Lib
