import Thingino.Scripts.UpdatePackages

/-! What the parts of `update_packages.py` do to the stashes.

All but a few are `Quiet`: they neither push nor pop, and leave alone what is known of the stash. From the push on
nothing is pushed again (`Extends`). -/
namespace Thingino.Scripts.UpdatePackages
open Lib

/-- Neither a `stash push` nor a `stash pop`. -/
def Action.quiet : Action → Bool
  | .git (.stashPush _) | .git (.stashPop _) => false
  | _ => true

def Action.isPush : Action → Bool
  | .git (.stashPush _) => true
  | _ => false

theorem Action.isPush_eq_false {a : Action} (h : a.quiet = true) : a.isPush = false := by
  unfold Action.quiet at h
  unfold Action.isPush
  split at h
  · exact absurd h (by decide)
  · exact absurd h (by decide)
  · split
    · next hpush _ => exact absurd rfl (hpush _)
    · rfl

/-- More of the trail, and no further push. -/
def Extends (s s' : State) : Prop :=
  ∃ more, s'.trail = s.trail ++ more ∧ ∀ e ∈ more, e.action.isPush = false

/-- More of the trail, and the stashes and what is known of them as they were. -/
structure Quiet (s s' : State) : Prop where
  handling : s'.handling = s.handling
  dryRun : s'.dryRun = s.dryRun
  stashRef : s'.stashRef = s.stashRef
  stashes : s'.stashes = s.stashes
  trail : ∃ more, s'.trail = s.trail ++ more ∧ ∀ e ∈ more, e.action.quiet = true

theorem Quiet.refl (s : State) : Quiet s s := ⟨rfl, rfl, rfl, rfl, [], (List.append_nil _).symm, by simp⟩

instance : Std.Refl Quiet := ⟨Quiet.refl⟩

instance : IsTrans State Quiet := ⟨fun s s' s'' h h' => by
  obtain ⟨more, hmore, hq⟩ := h.trail
  obtain ⟨more', hmore', hq'⟩ := h'.trail
  refine ⟨h'.handling.trans h.handling, h'.dryRun.trans h.dryRun, h'.stashRef.trans h.stashRef,
    h'.stashes.trans h.stashes, more ++ more', by rw [hmore', hmore, List.append_assoc], fun e he => ?_⟩
  exact (List.mem_append.mp he).elim (hq e) (hq' e)⟩

instance : Std.Refl Extends := ⟨fun s => ⟨[], (List.append_nil _).symm, by simp⟩⟩

instance : IsTrans State Extends := ⟨fun s s' s'' ⟨more, hmore, hq⟩ ⟨more', hmore', hq'⟩ => by
  refine ⟨more ++ more', by rw [hmore', hmore, List.append_assoc], fun e he => ?_⟩
  exact (List.mem_append.mp he).elim (hq e) (hq' e)⟩

theorem Quiet.extends {s s' : State} (h : Quiet s s') : Extends s s' := by
  obtain ⟨more, hmore, hq⟩ := h.trail
  exact ⟨more, hmore, fun e he => Action.isPush_eq_false (hq e he)⟩

/-- A change of the counters, the log level or the like. -/
theorem modify_quiet {f : State → State} (h : ∀ s, (f s).handling = s.handling ∧ (f s).dryRun = s.dryRun ∧
    (f s).stashRef = s.stashRef ∧ (f s).stashes = s.stashes ∧ (f s).trail = s.trail := by
      intro s; exact ⟨rfl, rfl, rfl, rfl, rfl⟩) : Along Quiet (modify f : Script PUnit) :=
  .modify fun s =>
    ⟨(h s).1, (h s).2.1, (h s).2.2.1, (h s).2.2.2.1, [], by rw [(h s).2.2.2.2, List.append_nil], by simp⟩

theorem extends_of_quiet {α : Type} {m : Script α} (h : Along Quiet m) : Along Extends m :=
  h.weaken fun _ _ => Quiet.extends

section Script
variable {o : Outside}

theorem act_ends (a : Action) (s : State) :
    Ends (act o a) s (fun r s' => s' = o.record a s ∧ o.answer s.trail.length a = .ok r)
      (fun e s' => s' = o.record a s ∧ o.answer s.trail.length a = .error e) := by
  unfold Ends act
  cases h : o.answer s.trail.length a with
  | ok r => exact ⟨rfl, rfl⟩
  | error e => exact ⟨rfl, rfl⟩

theorem record_quiet {a : Action} (ha : a.quiet = true) (s : State) : Quiet s (o.record a s) := by
  refine ⟨rfl, rfl, rfl, ?_, _, rfl, fun e he => ?_⟩
  · show o.stashes s.trail.length a s.stashes = s.stashes
    unfold Outside.stashes
    unfold Action.quiet at ha
    split
    · exact absurd ha (by simp)
    · exact absurd ha (by simp)
    · rfl
  · rw [List.mem_singleton.mp he]
    exact ha

theorem act_quiet {a : Action} (ha : a.quiet = true) : Along Quiet (act o a) := by
  intro s
  have h := act_ends (o := o) a s
  unfold Ends at h
  cases hr : act o a s <;> rw [hr] at h <;> exact h.1 ▸ record_quiet ha s

theorem act_extends {a : Action} (ha : a.isPush = false) : Along Extends (act o a) := by
  intro s
  have h := act_ends (o := o) a s
  have hs : Extends s (o.record a s) := ⟨_, rfl, fun e he => by rw [List.mem_singleton.mp he]; exact ha⟩
  unfold Ends at h
  cases hr : act o a s <;> rw [hr] at h <;> exact h.1 ▸ hs

/-! ### What the script does besides -/

section Quiet
variable (o)

theorem logDebug_quiet (msg : String) : Along Quiet (logDebug o msg) :=
  Along.get.bind fun _ => .ite (act_quiet rfl) (.pure _)

theorem logInfo_quiet (msg : String) : Along Quiet (logInfo o msg) :=
  Along.get.bind fun _ => .ite (act_quiet rfl) (.pure _)

theorem logWarn_quiet (msg : String) : Along Quiet (logWarn o msg) := act_quiet rfl

theorem logError_quiet (msg : String) : Along Quiet (logError o msg) := act_quiet rfl

theorem logSuccess_quiet (msg : String) : Along Quiet (logSuccess o msg) := act_quiet rfl

theorem exceptException_quiet {α : Type} {m : Script α} {f : String → Script α} (hm : Along Quiet m)
    (hf : ∀ e, Along Quiet (f e)) : Along Quiet (exceptException m f) :=
  hm.tryCatch fun
    | .exception e => hf e
    | .keyboardInterrupt => .throw _

theorem checkGitWorkingDirectory_quiet : Along Quiet (checkGitWorkingDirectory o) := by
  refine (logDebug_quiet o _).bind fun _ => (act_quiet rfl).bind fun r => .ite ?_ ?_
  · exact (logDebug_quiet o _).bind fun _ => .pure _
  refine (act_quiet rfl).bind fun r => .ite ?_ ?_
  · exact (logDebug_quiet o _).bind fun _ => .pure _
  refine (act_quiet rfl).bind fun r => .ite ?_ ?_
  · exact (logDebug_quiet o _).bind fun _ => .pure _
  · exact (logDebug_quiet o _).bind fun _ => .pure _

theorem createPackageCommit_quiet (packageName : String) (mk : Path) (oldHash newHash : String)
    (commitLog : List String) : Along Quiet (createPackageCommit o packageName mk oldHash newHash commitLog) := by
  refine (logDebug_quiet o _).bind fun _ => (act_quiet rfl).bind fun r => .ite ?_ ?_
  · exact (logError_quiet o _).bind fun _ => .pure _
  refine (act_quiet rfl).bind fun r => .ite ?_ ?_
  · exact (logError_quiet o _).bind fun _ => (act_quiet rfl).bind fun _ => .pure _
  · exact (logSuccess_quiet o _).bind fun _ => .pure _

theorem writeUpdate_quiet (mk : Path) (text newText newHash : String) :
    Along Quiet (writeUpdate o mk text newText newHash) := by
  refine exceptException_quiet ?_ fun e => ?_
  · exact (act_quiet rfl).bind fun _ => (act_quiet rfl).bind fun _ => (logSuccess_quiet o _).bind fun _ => .pure _
  · exact (logError_quiet o _).bind fun _ =>
      (exceptException_quiet (act_quiet rfl) fun _ => .pure _).bind fun _ => .pure _

theorem updatePackageMk_quiet (mk : Path) (packageName oldHash newHash : String) :
    Along Quiet (updatePackageMk o mk packageName oldHash newHash) := by
  refine Along.bind (exceptException_quiet ?_ fun e => ?_) fun text => ?_
  · exact (act_quiet rfl).bind fun _ => .pure _
  · exact (logError_quiet o _).bind fun _ => .pure _
  cases text with
  | none => exact .pure _
  | some text =>
    dsimp only
    split
    · exact (logError_quiet o _).bind fun _ => .pure _
    · exact writeUpdate_quiet o mk text _ newHash

theorem updateAndCommit_quiet (mk : Path) (p : Parsed) (remoteHash : String) (logLines : List String) :
    Along Quiet (updateAndCommit o mk p remoteHash logLines) := by
  refine (updatePackageMk_quiet o _ _ _ _).bind fun updated => .ite ?_ (logError_quiet o _)
  refine (createPackageCommit_quiet o _ _ _ _ _).bind fun committed => .ite ?_ (logError_quiet o _)
  exact (modify_quiet).bind fun _ => logDebug_quiet o _

theorem printUpdate_quiet (p : Parsed) (remoteHash : String) : Along Quiet (printUpdate o p remoteHash) :=
  (act_quiet rfl).bind fun _ => (act_quiet rfl).bind fun _ => (act_quiet rfl).bind fun _ =>
    (act_quiet rfl).bind fun _ => act_quiet rfl

theorem printLog_quiet (logLines : List String) : Along Quiet (printLog o logLines) := by
  have hend : Along Quiet (do act o (.print ""); act o .flush) := (act_quiet rfl).bind fun _ => act_quiet rfl
  refine .ite ?_ ?_
  · exact (act_quiet rfl).bind fun _ => hend
  · exact (Along.forM (fun line => act_quiet rfl) logLines).bind fun _ => hend

theorem offerUpdate_quiet (mk : Path) (p : Parsed) (remoteHash : String) :
    Along Quiet (offerUpdate o mk p remoteHash) := by
  refine (modify_quiet).bind fun _ => (logDebug_quiet o _).bind fun _ => ?_
  refine (printUpdate_quiet o p remoteHash).bind fun _ => ?_
  refine (act_quiet rfl).bind fun logLines => (printLog_quiet o logLines).bind fun _ => ?_
  refine Along.get.bind fun s => .ite (logDebug_quiet o _) ?_
  exact (act_quiet rfl).bind fun wanted => .ite (updateAndCommit_quiet o mk p remoteHash logLines) (logDebug_quiet o _)

theorem printUpToDate_quiet (p : Parsed) : Along Quiet (printUpToDate o p) :=
  (act_quiet rfl).bind fun _ => (act_quiet rfl).bind fun _ => (act_quiet rfl).bind fun _ =>
    (act_quiet rfl).bind fun _ => (act_quiet rfl).bind fun _ => logDebug_quiet o _

theorem checkPackage_quiet (mk : Path) (p : Parsed) : Along Quiet (checkPackage o mk p) := by
  refine (logInfo_quiet o _).bind fun _ => (logDebug_quiet o _).bind fun _ => (logDebug_quiet o _).bind fun _ =>
    (logDebug_quiet o _).bind fun _ => (act_quiet rfl).bind fun remoteHash => ?_
  cases remoteHash with
  | none => exact logError_quiet o _
  | some remoteHash =>
    exact (logDebug_quiet o _).bind fun _ => .ite (printUpToDate_quiet o p) (offerUpdate_quiet o mk p remoteHash)

theorem processPackage_quiet (mk : Path) : Along Quiet (processPackage o mk) := by
  refine (act_quiet rfl).bind fun parsed => ?_
  cases parsed with
  | none => exact .pure _
  | some p => exact checkPackage_quiet o mk p

theorem examine_quiet (mk : Path) : Along Quiet (examine o mk) :=
  (logDebug_quiet o _).bind fun _ => (modify_quiet).bind fun _ => processPackage_quiet o mk

theorem printSummary_quiet : Along Quiet (printSummary o) := by
  refine Along.get.bind fun s => (act_quiet rfl).bind fun _ => (act_quiet rfl).bind fun _ =>
    (act_quiet rfl).bind fun _ => (act_quiet rfl).bind fun _ => (act_quiet rfl).bind fun _ => .ite ?_ (act_quiet rfl)
  exact (act_quiet rfl).bind fun _ => (act_quiet rfl).bind fun _ =>
    (Along.forM (fun u => act_quiet rfl) s.updatedPackages).bind fun _ => act_quiet rfl

theorem logResult_quiet : Along Quiet (logResult o) := by
  refine Along.get.bind fun s => .ite (logInfo_quiet o _) ?_
  exact (logInfo_quiet o _).bind fun _ => .ite (logSuccess_quiet o _) (.pure _)

end Quiet

/-! ### What it does with the stashes -/

section Extends
variable (o)

theorem stillExists_quiet : Along Quiet (stillExists o) := by
  refine Along.get.bind fun s => ?_
  split
  · exact .pure _
  · exact .ite (.pure _) ((act_quiet rfl).bind fun _ => .pure _)

theorem modify_extends {f : State → State} (h : ∀ s, (f s).trail = s.trail := by intro s; rfl) :
    Along Extends (modify f : Script PUnit) :=
  .modify fun s => ⟨[], by rw [h, List.append_nil], by simp⟩

theorem finishPop_extends (ref : String) (r : Ran) : Along Extends (finishPop o ref r) := by
  have hend : Along Extends (do logSuccess o "Successfully restored stashed changes"; forgetStash; pure true) :=
    (extends_of_quiet (logSuccess_quiet o _)).bind fun _ => (modify_extends).bind fun _ => .pure _
  refine (extends_of_quiet (stillExists_quiet o)).bind fun still => .ite ?_ (.ite ?_ hend)
  · exact extends_of_quiet ((logError_quiet o _).bind fun _ => (logWarn_quiet o _).bind fun _ => .pure _)
  · exact (extends_of_quiet (logWarn_quiet o _)).bind fun _ => hend

theorem popStash_extends (ref : String) : Along Extends (popStash o ref) :=
  (extends_of_quiet (logInfo_quiet o _)).bind fun _ => (act_extends rfl).bind fun r =>
    finishPop_extends o ref r

theorem restoreStashedChanges_extends : Along Extends (restoreStashedChanges o) := by
  refine Along.get.bind fun s => ?_
  split
  · exact extends_of_quiet ((logDebug_quiet o _).bind fun _ => .pure _)
  · exact popStash_extends o _

theorem recordStash_extends : Along Extends (recordStash o) := by
  refine (act_extends rfl).bind fun r => .ite ?_ ?_
  · exact extends_of_quiet ((logError_quiet o _).bind fun _ => .pure _)
  split
  · exact extends_of_quiet ((logError_quiet o _).bind fun _ => .pure _)
  · exact (modify_extends).bind fun _ => extends_of_quiet ((logSuccess_quiet o _).bind fun _ => .pure _)

theorem scan_extends (mks : List Path) : Along Extends (scan o mks) := by
  refine (extends_of_quiet (Along.forM (examine_quiet o) _)).bind fun _ => ?_
  refine (extends_of_quiet (printSummary_quiet o)).bind fun _ => ?_
  refine (extends_of_quiet (logResult_quiet o)).bind fun _ => Along.get.bind fun s => ?_
  refine .ite (.pure _) ((restoreStashedChanges_extends o).bind fun _ => .ite (.pure _) ?_)
  exact extends_of_quiet ((logWarn_quiet o _).bind fun _ => .pure _)

theorem findAndScan_extends (patterns : List String) : Along Extends (findAndScan o patterns) := by
  refine (act_extends rfl).bind fun found => .ite ?_ (scan_extends o _)
  exact extends_of_quiet ((logError_quiet o _).bind fun _ => .pure _)

theorem rescue_extends : Along Extends (rescue o) := by
  refine Along.get.bind fun s => .ite ?_ (.pure _)
  exact (extends_of_quiet (logInfo_quiet o _)).bind fun _ =>
    (restoreStashedChanges_extends o).bind fun _ => .pure _

theorem handle_extends (e : Raise) : Along Extends (handle o e) := by
  refine (modify_extends).bind fun _ => ?_
  cases e with
  | keyboardInterrupt =>
    exact (act_extends rfl).bind fun _ => (act_extends rfl).bind fun _ => (rescue_extends o).bind fun _ => .pure _
  | exception e => exact (act_extends rfl).bind fun _ => (rescue_extends o).bind fun _ => .pure _

theorem prepare_extends (args : Args) : Along Extends (prepare o args) := by
  refine (act_extends rfl).bind fun _ => (modify_extends).bind fun _ => ?_
  refine (extends_of_quiet (logInfo_quiet o _)).bind fun _ => ?_
  refine (extends_of_quiet (logInfo_quiet o _)).bind fun _ => (act_extends rfl).bind fun _ => ?_
  exact .ite (.pure _) ((act_extends rfl).bind fun _ => .pure _)

end Extends

end Script

end Thingino.Scripts.UpdatePackages
