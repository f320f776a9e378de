import Thingino.Lib.Grep
import Thingino.Lib.Shell

/-! One probe pass of the stream watchdog: `check_rtsp_stream`.

Behind the socket probes stand two queries of `prudyntctl`. What they print is free text, and the
script takes single fields out of it: the first `"fps":` with the digits behind it, the first
`"subs":`, the first `"rtp_pkts":`. `Says` states such a field without the pipeline. -/
namespace Thingino.Watchdog.Probe
open Lib

/-- What the three functions return: 0, 1 and 2. -/
inductive Verdict
  | flowing
  | confirmed
  | inconclusive
  deriving DecidableEq

/-- What a pass meets: `RTP_PROBE_ENABLE`, the two ways to ask for `OPTIONS`, whether there is a `prudyntctl`, and
what it prints at each call; an error or a timeout is `none`. -/
structure World where
  rtpProbeEnable : List Byte
  curl : Bool
  nc : Bool
  prudyntctl : Bool
  frames : Option (List Byte)
  before : Option (List Byte)
  after : Option (List Byte)

/-- `$(…)` leaves out NUL bytes and the newlines at the end. -/
def captured (printed : List Byte) : List Byte := Shell.output (printed.filter (· ≠ 0))

def query (w : World) (answer : Option (List Byte)) : Option (List Byte) :=
  if w.prudyntctl then answer.map captured else none

def fieldKey (name : List Byte) : List Byte := 34 :: name ++ [34, 58]

/-- `cut -d: -f2`. -/
def cutSecond (line : List Byte) : List Byte :=
  if line.contains 58 then (line.dropWhile (· ≠ 58)).tail.takeWhile (· ≠ 58) else line

/-- `grep -o '"name":[0-9]*' | head -n 1 | cut -d: -f2`. -/
def field (name out : List Byte) : List Byte :=
  match (grepO (fieldKey name) isDigit [] out).head? with
  | some run => Shell.output (cutSecond (fieldKey name ++ run))
  | none => []

def numeric (s : List Byte) : Bool := s ≠ [] && s.all isDigit

def checkFrames (w : World) : Verdict :=
  match query w w.frames with
  | none => .inconclusive
  | some out =>
    let fps := field (ascii "fps") out
    if !numeric fps then .inconclusive
    else if Shell.testGt fps 0 then .flowing
    else if field (ascii "subs") out ≠ ascii "1" then .inconclusive
    else .confirmed

def checkVideoRtp (w : World) : Verdict :=
  if w.rtpProbeEnable ≠ ascii "1" then .inconclusive
  else
    match query w w.before with
    | none => .inconclusive
    | some r1 =>
      let p1 := field (ascii "rtp_pkts") r1
      if field (ascii "subs") r1 ≠ ascii "1" then .inconclusive
      else if !numeric p1 then .inconclusive
      else
        match query w w.after with
        | none => .inconclusive
        | some r2 =>
          let p2 := field (ascii "rtp_pkts") r2
          if field (ascii "subs") r2 ≠ ascii "1" then .inconclusive
          else if !numeric p2 then .inconclusive
          else if p2 ≠ p1 then .flowing
          else .confirmed

/-- Whether the stream is serving. -/
def checkRtspStream (w : World) : Bool :=
  if !w.curl && !w.nc then false
  else if checkFrames w = .confirmed then false
  else if checkVideoRtp w = .confirmed then false
  else true

/-! ### Fields -/

/-- The first field of that name in what a call has printed. -/
def Says (w : World) (answer : Option (List Byte)) (name value : List Byte) : Prop :=
  ∃ out, query w answer = some out ∧ FirstRun (fieldKey name) isDigit out value

theorem fieldKey_ne_nil (name : List Byte) : fieldKey name ≠ [] := List.cons_ne_nil _ _

theorem Says.unique {w : World} {answer : Option (List Byte)} {name value value' : List Byte}
    (h : Says w answer name value) (h' : Says w answer name value') : value = value' := by
  obtain ⟨out, hout, hfirst⟩ := h
  obtain ⟨out', hout', hfirst'⟩ := h'
  obtain rfl : out = out' := Option.some_inj.mp (hout.symm.trans hout')
  exact hfirst.unique (fieldKey_ne_nil name) hfirst'

/-- The second field of a match is its run. -/
theorem cutSecond_match {name run : List Byte} (hname : (58 : Byte) ∉ name) (hrun : (58 : Byte) ∉ run) :
    cutSecond (fieldKey name ++ run) = run := by
  have hline : fieldKey name ++ run = (34 :: name ++ [34]) ++ 58 :: run := by simp [fieldKey]
  have hquoted : (58 : Byte) ∉ 34 :: name ++ [34] := by simpa using hname
  have hhas : ((34 :: name ++ [34]) ++ 58 :: run).contains 58 = true := by simp
  rw [hline, cutSecond, if_pos hhas, List.dropWhile_append_of_pos fun b hb => ?_, List.dropWhile_cons_of_neg (by simp),
    List.tail_cons, List.takeWhile_eq_self_iff.mpr fun b hb => ?_]
  · exact decide_eq_true fun heq => hrun (heq ▸ hb)
  · exact decide_eq_true fun heq => hquoted (heq ▸ hb)

/-- The pipeline finds the first field; it has nothing to say where there is none, or no digit behind it. -/
theorem field_eq_iff {name out value : List Byte} (hname : (58 : Byte) ∉ name) (hvalue : value ≠ []) :
    field name out = value ↔ FirstRun (fieldKey name) isDigit out value := by
  rw [← head?_grepO_iff (fieldKey_ne_nil name), field]
  cases hhead : (grepO (fieldKey name) isDigit [] out).head? with
  | none => exact ⟨fun h => absurd h.symm hvalue, fun h => absurd h.symm (Option.some_ne_none value)⟩
  | some run =>
    have hrun : ∀ b ∈ run, isDigit b = true := forall_mem_grepFrom 0 out run (List.mem_of_head? hhead)
    have hplain : ∀ b, isDigit b = false → b ∉ run := fun b hb hmem => Bool.false_ne_true (hb.symm.trans (hrun b hmem))
    have hlast : run.getLast? ≠ some 10 := fun h => hplain 10 rfl (List.mem_of_getLast? h)
    show Shell.output (cutSecond (fieldKey name ++ run)) = value ↔ _
    rw [cutSecond_match hname (hplain 58 rfl), Shell.output_eq_self hlast, Option.some_inj]

theorem numeric_of_firstRun {key out value : List Byte} (h : FirstRun key isDigit out value) (hvalue : value ≠ []) :
    numeric value = true := by
  obtain ⟨-, -, -, -, hdigits, -⟩ := h
  simp [numeric, hvalue, List.all_eq_true.mpr hdigits]

theorem ne_nil_of_numeric {s : List Byte} (h : numeric s = true) : s ≠ [] := by
  simp [numeric] at h
  exact h.1

/-! ### What the probes confirm -/

/-- The first output has a number `n` in its first fps field, and 1 in its first subs field. -/
structure FrameReport (w : World) (n : Nat) : Prop where
  fps : ∃ value, value ≠ [] ∧ Says w w.frames (ascii "fps") value ∧ Shell.decimal value = n
  subs : Says w w.frames (ascii "subs") (ascii "1")

/-- Both samples are there, with a subscriber and the same number of packets. -/
structure Stalled (w : World) : Prop where
  enabled : w.rtpProbeEnable = ascii "1"
  subs : Says w w.before (ascii "subs") (ascii "1") ∧ Says w w.after (ascii "subs") (ascii "1")
  packets : ∃ value, value ≠ [] ∧ Says w w.before (ascii "rtp_pkts") value ∧ Says w w.after (ascii "rtp_pkts") value

/-- What a pass should find not serving. -/
def NotServing (w : World) : Prop := (w.curl = false ∧ w.nc = false) ∨ FrameReport w 0 ∨ Stalled w

theorem FrameReport.unique {w : World} {m n : Nat} (h : FrameReport w m) (h' : FrameReport w n) : m = n := by
  obtain ⟨⟨value, -, hvalue, rfl⟩, -⟩ := h
  obtain ⟨⟨value', -, hvalue', rfl⟩, -⟩ := h'
  rw [hvalue.unique hvalue']

/-- `check_frames` takes a number that `test` cannot read for a zero. -/
theorem checkFrames_confirmed_iff (w : World) :
    checkFrames w = .confirmed ↔ ∃ n, FrameReport w n ∧ (n = 0 ∨ Shell.testMax < n) := by
  have hfps : (58 : Byte) ∉ ascii "fps" := by decide
  have hsubs : (58 : Byte) ∉ ascii "subs" := by decide
  rw [checkFrames]
  cases hout : query w w.frames with
  | none =>
    refine ⟨fun h => (nomatch h), fun ⟨n, hreport, _⟩ => ?_⟩
    obtain ⟨out, hsome, -⟩ := hreport.subs
    exact absurd (hout.symm.trans hsome).symm (Option.some_ne_none out)
  | some out =>
    dsimp only
    constructor
    · intro h
      by_cases hnumeric : numeric (field (ascii "fps") out) = true
      · by_cases hgt : Shell.testGt (field (ascii "fps") out) 0 = true
        · simp [hnumeric, hgt] at h
        · by_cases hone : field (ascii "subs") out = ascii "1"
          · have hvalue := ne_nil_of_numeric hnumeric
            refine ⟨_, ⟨⟨_, hvalue, ⟨out, hout, (field_eq_iff hfps hvalue).mp rfl⟩, rfl⟩,
              ⟨out, hout, (field_eq_iff hsubs (by decide)).mp hone⟩⟩, ?_⟩
            simp [Shell.testGt] at hgt
            omega
          · simp [hnumeric, hgt, hone] at h
      · simp [hnumeric] at h
    · rintro ⟨n, ⟨⟨value, hvalue, ⟨out', hout', hfirst⟩, rfl⟩, out'', hout'', hone⟩, hn⟩
      obtain rfl : out = out' := Option.some_inj.mp (hout.symm.trans hout')
      obtain rfl : out = out'' := Option.some_inj.mp (hout.symm.trans hout'')
      have hgt : Shell.testGt value 0 = false := by
        simp [Shell.testGt]
        omega
      rw [(field_eq_iff hfps hvalue).mpr hfirst, (field_eq_iff hsubs (by decide)).mpr hone]
      simp [numeric_of_firstRun hfirst hvalue, hgt]

theorem checkVideoRtp_confirmed_iff (w : World) : checkVideoRtp w = .confirmed ↔ Stalled w := by
  have hpackets : (58 : Byte) ∉ ascii "rtp_pkts" := by decide
  have hsubs : (58 : Byte) ∉ ascii "subs" := by decide
  rw [checkVideoRtp]
  constructor
  · intro h
    by_cases henabled : w.rtpProbeEnable = ascii "1"
    · cases hr1 : query w w.before with
      | none => simp [henabled, hr1] at h
      | some r1 =>
        by_cases hone1 : field (ascii "subs") r1 = ascii "1"
        · by_cases hp1 : numeric (field (ascii "rtp_pkts") r1) = true
          · cases hr2 : query w w.after with
            | none => simp [henabled, hr1, hone1, hp1, hr2] at h
            | some r2 =>
              have hvalue := ne_nil_of_numeric hp1
              by_cases hone2 : field (ascii "subs") r2 = ascii "1"
              · by_cases hsame : field (ascii "rtp_pkts") r2 = field (ascii "rtp_pkts") r1
                · exact ⟨henabled, ⟨⟨r1, hr1, (field_eq_iff hsubs (by decide)).mp hone1⟩,
                    r2, hr2, (field_eq_iff hsubs (by decide)).mp hone2⟩, _, hvalue,
                    ⟨r1, hr1, (field_eq_iff hpackets hvalue).mp rfl⟩, r2, hr2, (field_eq_iff hpackets hvalue).mp hsame⟩
                · simp [henabled, hr1, hone1, hp1, hr2, hone2, hsame] at h
                  split at h <;> cases h
              · simp [henabled, hr1, hone1, hp1, hr2, hone2] at h
          · simp [henabled, hr1, hone1, hp1] at h
        · simp [henabled, hr1, hone1] at h
    · simp [henabled] at h
  · rintro ⟨henabled, ⟨⟨r1, hr1, hone1⟩, r2, hr2, hone2⟩, value, hvalue, ⟨r1', hr1', hp1⟩, r2', hr2', hp2⟩
    obtain rfl : r1 = r1' := Option.some_inj.mp (hr1.symm.trans hr1')
    obtain rfl : r2 = r2' := Option.some_inj.mp (hr2.symm.trans hr2')
    have hnumeric := numeric_of_firstRun hp1 hvalue
    rw [← field_eq_iff hsubs (by decide)] at hone1 hone2
    rw [← field_eq_iff hpackets hvalue] at hp1 hp2
    simp [henabled, hr1, hr2, hone1, hone2, hp1, hp2, hnumeric]

/-- The first output has a number with a subscriber that `test` cannot read. -/
def Unreadable (w : World) : Prop := ∃ n, FrameReport w n ∧ Shell.testMax < n

theorem checkRtspStream_eq_false_iff (w : World) :
    checkRtspStream w = false ↔ NotServing w ∨ Unreadable w := by
  have hframes : checkFrames w = .confirmed ↔ FrameReport w 0 ∨ Unreadable w := by
    rw [checkFrames_confirmed_iff]
    constructor
    · rintro ⟨n, hreport, rfl | hn⟩
      · exact .inl hreport
      · exact .inr ⟨n, hreport, hn⟩
    · rintro (hreport | ⟨n, hreport, hn⟩)
      · exact ⟨0, hreport, .inl rfl⟩
      · exact ⟨n, hreport, .inr hn⟩
  rw [checkRtspStream, NotServing, ← checkVideoRtp_confirmed_iff]
  by_cases hdown : w.curl = false ∧ w.nc = false
  · simp [hdown]
  · have hup : (!w.curl && !w.nc) = false := by simpa using hdown
    by_cases hfrozen : checkFrames w = .confirmed
    · simp [hup, hfrozen]
      tauto
    · simp [hup, hfrozen]
      tauto

/-- **The probe fails safe** except for one kind of output: with the socket up and no stall in the
two samples, a first fps field that is a number above what `test` reads, next to a subscriber,
is reported as a frozen encoder. -/
theorem check_rtsp_stream_iff (w : World) :
    (checkRtspStream w = false ↔ NotServing w) ↔
      ¬((w.curl = true ∨ w.nc = true) ∧ Unreadable w ∧ ¬Stalled w) := by
  have hzero : Unreadable w → ¬FrameReport w 0 := by
    rintro ⟨n, hreport, hn⟩ hfrozen
    rw [hreport.unique hfrozen] at hn
    exact absurd hn (Nat.not_lt_zero _)
  have hup : (w.curl = true ∨ w.nc = true) ↔ ¬(w.curl = false ∧ w.nc = false) := by
    cases w.curl <;> cases w.nc <;> simp
  rw [checkRtspStream_eq_false_iff, hup]
  unfold NotServing
  tauto

/-- An encoder with a subscriber, and more frames than `test` can count. -/
def busy : World :=
  ⟨ascii "1", true, false, true,
    some (ascii "\x7b\"stream0\":\x7b\"stats\":\x7b\"fps\":9223372036854775808,\"subs\":1\x7d\x7d\x7d\n"),
    none, none⟩

theorem busy_reported_frozen : checkRtspStream busy = false ∧ ¬NotServing busy := by
  have hfps : Says busy busy.frames (ascii "fps") (ascii "9223372036854775808") :=
    ⟨_, rfl, (field_eq_iff (by decide) (by decide)).mp (by decide)⟩
  have hsubs : Says busy busy.frames (ascii "subs") (ascii "1") :=
    ⟨_, rfl, (field_eq_iff (by decide) (by decide)).mp (by decide)⟩
  have hreport : FrameReport busy 9223372036854775808 := ⟨⟨_, by decide, hfps, by decide⟩, hsubs⟩
  refine ⟨(checkRtspStream_eq_false_iff busy).mpr (.inr ⟨_, hreport, by decide⟩), ?_⟩
  rintro (hdown | hfrozen | hstalled)
  · exact absurd hdown.1 (by decide)
  · exact absurd (hreport.unique hfrozen) (by decide)
  · obtain ⟨out, hout, -⟩ := hstalled.subs.1
    exact absurd hout.symm (Option.some_ne_none out)

end Thingino.Watchdog.Probe
