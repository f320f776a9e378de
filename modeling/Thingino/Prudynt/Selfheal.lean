import Thingino.Lib.Replace
import Thingino.Lib.Shell

/-! `validate_and_restore_config` of S31prudynt: a broken `/etc/prudynt.json` is replaced by the ROM copy.

What `jct` prints for `image.isp_bypass` decides, and each `jct` runs under `timeout`. The exit code is not
looked at, so that a probe that was killed before it printed anything looks like one that found no value. -/
namespace Thingino.Prudynt.Selfheal
open Lib

/-- A run of `timeout "$JCT_TIMEOUT" jct FILE get image.isp_bypass`: what it prints, and whether the timeout
killed it. -/
structure Probe where
  out : List Byte
  killed : Bool

/-- `$(…)`. -/
def Probe.value (p : Probe) : List Byte := Shell.output p.out

/-- The file parses and the field is a boolean. -/
def Probe.valid (p : Probe) : Bool := p.value = ascii "true" || p.value = ascii "false"

/-- The files and how each command turns out: whether there is a `jct`, whether `rm`, `cp`, `sync`, `mv` and
the last `rm` succeed. `torn` is what a `cp` that fails leaves beside the configuration. -/
structure World where
  jct : Bool
  rom : Option (List Byte)
  live : Option (List Byte)
  orphan : Option (Node (List Byte))
  probe : Probe
  romProbe : Probe
  rm : Bool
  cp : Bool
  torn : Option (Node (List Byte))
  sync : Bool
  mv : Bool
  discard : Bool

namespace World

variable (w : World)

def start : Disk (List Byte) := ⟨w.live.map (⟨·, true⟩), w.orphan, none⟩

/-- `rm -f "$CFG.c1tmp"`. -/
def rmTemp (ok : Bool) (d : Disk (List Byte)) : Disk (List Byte) := if ok then d.setTemp none else d

/-- `cp "$ROM" "$CFG.c1tmp" && sync && mv -f "$CFG.c1tmp" "$CFG"`, or the temp goes again. -/
def restore (rom : List Byte) (d : Disk (List Byte)) : List (Disk (List Byte)) :=
  if w.cp then
    let copied := d.setTemp (some ⟨rom, false⟩)
    if w.sync then
      let synced := copied.sync
      if w.mv then [copied, synced, synced.rename] else [copied, synced, rmTemp w.discard synced]
    else [copied, rmTemp w.discard copied]
  else
    let copied := d.setTemp w.torn
    [copied, rmTemp w.discard copied]

/-- The value of the live file; a missing one is not probed. -/
def liveValue : List Byte := if w.live.isSome then w.probe.value else []

/-- The states of the disk, one after the other. -/
def validateAndRestoreConfig : List (Disk (List Byte)) :=
  if !w.jct then [w.start]
  else
    match w.rom with
    | none | some [] => [w.start]
    | some rom =>
      let d := rmTemp w.rm w.start
      if w.liveValue = ascii "true" ∨ w.liveValue = ascii "false" then [w.start, d]
      else if w.romProbe.value ≠ ascii "true" then [w.start, d]
      else w.start :: d :: w.restore rom d

end World

/-- **The property.** What is read is the old file or a whole copy of the ROM file, at each moment and after
a power cut at each moment; the file changes only with reason; and a killed probe changes nothing. -/
structure FailSafe (w : World) : Prop where
  whole : ∀ d ∈ w.validateAndRestoreConfig, d.Keeps fun c => c = w.live ∨ c = w.rom
  justified : ∀ d ∈ w.validateAndRestoreConfig, d.content ≠ w.live →
    (w.live = none ∨ (w.probe.killed = false ∧ w.probe.valid = false)) ∧ w.romProbe.value = ascii "true"
  spared : w.live.isSome = true → w.probe.killed = true →
    ∀ d ∈ w.validateAndRestoreConfig, d.content = w.live

namespace World

/-- Everything that a restore takes is there and succeeds. -/
def restorable (w : World) : Bool :=
  w.jct && w.rom.any (· ≠ []) && (w.romProbe.value = ascii "true" : Bool) && w.cp && w.sync && w.mv

/-- A probe of a file that was killed has printed the value before, or there is nothing to restore, or the
file is the ROM file. -/
def HeedsTimeout (w : World) : Prop :=
  w.live.isSome = true → w.probe.killed = true → w.probe.valid = true ∨ w.restorable = false ∨ w.live = w.rom

variable {w : World} {rom : List Byte} {d d' : Disk (List Byte)}

/-! ### The moments -/

/-- The name still stands for the old file. -/
def Untouched (w : World) (d : Disk (List Byte)) : Prop := d.live = w.live.map (⟨·, true⟩) ∧ d.before = none

theorem Untouched.keeps (h : w.Untouched d) : d.Keeps (· = w.live) := by
  rintro c (hlive | ⟨old, hold, -⟩)
  · rw [h.1] at hlive
    cases hw : w.live with
    | none =>
      rw [hw] at hlive
      exact hlive
    | some x =>
      rw [hw] at hlive
      obtain ⟨y, hc, hdata⟩ := hlive
      rw [hc, hdata rfl]
  · rw [h.2] at hold
    cases hold

theorem Untouched.sync (h : w.Untouched d) : w.Untouched d.sync := by
  refine ⟨?_, rfl⟩
  rw [Disk.sync, h.1]
  cases w.live <;> rfl

theorem untouched_start : w.Untouched w.start := ⟨rfl, rfl⟩

theorem untouched_rmTemp {ok : Bool} (h : w.Untouched d) : w.Untouched (rmTemp ok d) := by
  unfold rmTemp
  split
  · exact h
  · exact h

/-- Of the moments of a restore only the last one can see another file, and only if all went well. -/
theorem mem_restore (h : w.Untouched d) (hmem : d' ∈ w.restore rom d) :
    w.Untouched d' ∨ ((w.cp && w.sync && w.mv) = true ∧ d' = ((d.setTemp (some ⟨rom, false⟩)).sync).rename) := by
  have hcopied : ∀ t, w.Untouched (d.setTemp t) := fun t => h
  unfold restore at hmem
  split at hmem
  · rename_i hcp
    split at hmem
    · rename_i hsync
      split at hmem
      · rename_i hmv
        rcases List.mem_cons.mp hmem with rfl | hmem
        · exact .inl (hcopied _)
        rcases List.mem_cons.mp hmem with rfl | hmem
        · exact .inl (hcopied _).sync
        · exact .inr ⟨by rw [hcp, hsync, hmv]; rfl, List.mem_singleton.mp hmem⟩
      · rcases List.mem_cons.mp hmem with rfl | hmem
        · exact .inl (hcopied _)
        rcases List.mem_cons.mp hmem with rfl | hmem
        · exact .inl (hcopied _).sync
        · exact .inl (List.mem_singleton.mp hmem ▸ untouched_rmTemp (hcopied _).sync)
    · rcases List.mem_cons.mp hmem with rfl | hmem
      · exact .inl (hcopied _)
      · exact .inl (List.mem_singleton.mp hmem ▸ untouched_rmTemp (hcopied _))
  · rcases List.mem_cons.mp hmem with rfl | hmem
    · exact .inl (hcopied _)
    · exact .inl (List.mem_singleton.mp hmem ▸ untouched_rmTemp (hcopied _))

/-- The renamed file is the whole ROM copy. -/
theorem keeps_restored (h : w.Untouched d) :
    (((d.setTemp (some ⟨rom, false⟩)).sync).rename).Keeps fun c => c = w.live ∨ c = some rom := by
  have hkeeps : d.Keeps fun c => c = w.live ∨ c = some rom := fun c hc => .inl (h.keeps c hc)
  exact (hkeeps.setTemp _).sync.rename rfl (.inr rfl)

/-- A moment at which the name stands for another file: everything that a restore takes was there, and the
probe did not print the value. -/
theorem moments (hmem : d ∈ w.validateAndRestoreConfig) :
    w.Untouched d ∨
      ∃ rom, w.rom = some rom ∧ w.restorable = true ∧ (w.live = none ∨ w.probe.valid = false) ∧
        d = (((rmTemp w.rm w.start).setTemp (some ⟨rom, false⟩)).sync).rename := by
  unfold validateAndRestoreConfig at hmem
  split at hmem
  · exact .inl (List.mem_singleton.mp hmem ▸ untouched_start)
  rename_i hjct
  split at hmem
  · exact .inl (List.mem_singleton.mp hmem ▸ untouched_start)
  · exact .inl (List.mem_singleton.mp hmem ▸ untouched_start)
  rename_i rom hempty hrom
  have hfirst : ∀ d, d ∈ [w.start, rmTemp w.rm w.start] → w.Untouched d := by
    intro d hd
    rcases List.mem_cons.mp hd with rfl | hd
    · exact untouched_start
    · exact List.mem_singleton.mp hd ▸ untouched_rmTemp untouched_start
  split at hmem
  · exact .inl (hfirst d hmem)
  rename_i hprobe
  split at hmem
  · exact .inl (hfirst d hmem)
  rename_i hromProbe
  rcases List.mem_cons.mp hmem with rfl | hmem
  · exact .inl untouched_start
  rcases List.mem_cons.mp hmem with rfl | hmem
  · exact .inl (untouched_rmTemp untouched_start)
  rcases mem_restore (untouched_rmTemp untouched_start) hmem with huntouched | ⟨hall, rfl⟩
  · exact .inl huntouched
  refine .inr ⟨rom, hrom, ?_, ?_, rfl⟩
  · rw [Bool.and_eq_true, Bool.and_eq_true] at hall
    rw [Bool.not_eq_true, Bool.not_eq_false'] at hjct
    rw [ne_eq, not_not] at hromProbe
    simp [restorable, hjct, hrom, show rom ≠ [] from hempty, hromProbe, hall.1.1, hall.1.2, hall.2]
  · cases hlive : w.live with
    | none => exact .inl rfl
    | some x =>
      refine .inr ?_
      rw [liveValue, hlive, Option.isSome_some, if_pos rfl, not_or] at hprobe
      rw [Probe.valid, decide_eq_false hprobe.1, decide_eq_false hprobe.2]
      rfl

/-- Where everything is there and nothing else stops it, the last moment sees the ROM copy. -/
theorem restored_mem (hrom : w.rom = some rom) (hall : w.restorable = true) (hlive : w.live.isSome = true)
    (hprobe : w.probe.valid = false) :
    (((rmTemp w.rm w.start).setTemp (some ⟨rom, false⟩)).sync).rename ∈ w.validateAndRestoreConfig := by
  simp only [restorable, hrom, Option.any_some, Bool.and_eq_true, decide_eq_true_eq] at hall
  obtain ⟨⟨⟨⟨⟨hjct, hne⟩, hromProbe⟩, hcp⟩, hsync⟩, hmv⟩ := hall
  have hvalue : ¬(w.liveValue = ascii "true" ∨ w.liveValue = ascii "false") := by
    rw [liveValue, if_pos hlive]
    simpa [Probe.valid, not_or] using hprobe
  cases rom with
  | nil => exact absurd rfl hne
  | cons b rom =>
    simp only [validateAndRestoreConfig, hjct, Bool.not_true, Bool.false_eq_true, if_false, hrom, if_neg hvalue,
      hromProbe, ne_eq, not_true_eq_false, restore, hcp, hsync, hmv, if_true]
    exact List.mem_cons_of_mem _ (List.mem_cons_of_mem _ (List.mem_cons_of_mem _ (List.mem_cons_of_mem _
      List.mem_cons_self)))

end World

/-- **Exactly when the self-heal is fail-safe.** -/
theorem failSafe_iff (w : World) : FailSafe w ↔ w.HeedsTimeout := by
  constructor
  · intro h hlive hkilled
    by_contra hnot
    rw [not_or, not_or, Bool.not_eq_true, Bool.not_eq_false] at hnot
    obtain ⟨hprobe, hall, hne⟩ := hnot
    obtain ⟨rom, hrom⟩ : ∃ rom, w.rom = some rom := by
      cases hw : w.rom with
      | none => simp [World.restorable, hw] at hall
      | some rom => exact ⟨rom, rfl⟩
    have hspared := h.spared hlive hkilled _ (World.restored_mem hrom hall hlive hprobe)
    exact hne (hspared.symm.trans hrom.symm)
  · intro h
    refine ⟨fun d hd => ?_, fun d hd hchanged => ?_, fun hlive hkilled d hd => ?_⟩
    · rcases World.moments hd with huntouched | ⟨rom, hrom, -, -, rfl⟩
      · exact fun c hc => .inl (huntouched.keeps c hc)
      · rw [hrom]
        exact World.keeps_restored (World.untouched_rmTemp World.untouched_start)
    · rcases World.moments hd with huntouched | ⟨rom, hrom, hall, hprobe, rfl⟩
      · exact absurd huntouched.keeps.content hchanged
      refine ⟨?_, ?_⟩
      · rcases hprobe with hnone | hinvalid
        · exact .inl hnone
        cases hkilled : w.probe.killed with
        | false => exact .inr ⟨rfl, hinvalid⟩
        | true =>
          cases hlive : w.live with
          | none => exact .inl rfl
          | some x =>
            rcases h (by rw [hlive]; rfl) hkilled with hvalid | hstops | hsame
            · rw [hinvalid] at hvalid
              cases hvalid
            · rw [hall] at hstops
              cases hstops
            · exact absurd (hrom.symm.trans hsame.symm) hchanged
      · simp only [World.restorable, Bool.and_eq_true, decide_eq_true_eq] at hall
        exact hall.1.1.1.2
    · rcases World.moments hd with huntouched | ⟨rom, hrom, hall, hprobe, rfl⟩
      · exact huntouched.keeps.content
      rcases h hlive hkilled with hvalid | hstops | hsame
      · rcases hprobe with hnone | hinvalid
        · rw [hnone] at hlive
          cases hlive
        · rw [hinvalid] at hvalid
          cases hvalid
      · rw [hall] at hstops
        cases hstops
      · exact hrom.symm.trans hsame.symm

/-- A sound configuration on a slow flash: the probe of the live file is killed before it prints anything. -/
def slowFlash : World where
  jct := true
  rom := some (ascii "rom")
  live := some (ascii "mine")
  orphan := none
  probe := ⟨[], true⟩
  romProbe := ⟨ascii "true\n", false⟩
  rm := true
  cp := true
  torn := none
  sync := true
  mv := true
  discard := true

/-- The killed probe costs the user the configuration. -/
theorem killed_probe_restores :
    (slowFlash.validateAndRestoreConfig.map Disk.content).getLast? = some (some (ascii "rom")) ∧ ¬FailSafe slowFlash := by
  refine ⟨by decide, fun h => ?_⟩
  have hrom : slowFlash.rom = some (ascii "rom") := rfl
  have hspared := h.spared rfl rfl _ (World.restored_mem hrom (by decide) rfl (by decide))
  revert hspared
  decide

end Thingino.Prudynt.Selfheal
