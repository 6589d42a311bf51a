import LARCmaCS.Lib.Log
import LARCmaCS.Receiver

/-!
# Safety of the hand-off

`Step` says once what a step of the two threads can do; every invariant is a
case analysis of it. At most one `activateMA`, running algorithm or
`mainAlgFree` is under way at any time (`oneInFlight_of_run`); no merged frame
is lost (`delivered_of_run`), and none is delivered twice unless a slot comes
early (`freshDeliveries_of_noEarlySlot`).
-/

namespace LARCmaCS.HandOff

-- ---------------------------------------------------------------------------
-- What a step can do
-- ---------------------------------------------------------------------------

inductive Step (s : HandOff) : HandOffAct → HandOff → List ReceiverEvent → Prop
  | nothing (h : s.receiver.phase = .receiving) : Step s (.receive none) s []
  | geometry (h : s.receiver.phase = .receiving) (hg : packet.geometry = some geometry) :
      Step s (.receive (some packet))
        { s with receiver := { s.receiver with fieldsize := geometry.field, phase := .status } }
        [.updateField]
  | detection (h : s.receiver.phase = .receiving) (hg : packet.geometry = none)
      (hd : packet.detection = some d) (hm : mergeDetection s.receiver.packetssl d = some p) :
      Step s (.receive (some packet))
        { s with receiver := { s.receiver with
            timeCount := s.receiver.timeCount + 1
            packetsNum := s.receiver.packetsNum + 1
            packetssl := p
            phase := .firstEvents } }
        [.merged]
  | neither (h : s.receiver.phase = .receiving) (hg : packet.geometry = none)
      (hd : packet.detection = none) :
      Step s (.receive (some packet)) { s with receiver := { s.receiver with phase := .status } } []
  | deliver (h : s.receiver.phase = .firstEvents) (hfree : s.receiver.mainalgisfree = true) :
      Step s .leaveEvents
        { s with
          receiver := { s.receiver with mainalgisfree := false, newPacket := false, phase := .status }
          activateMA := s.activateMA ++ [s.receiver.packetssl] }
        [.activateMA s.receiver.packetssl, .activateGUI]
  | keep (h : s.receiver.phase = .firstEvents) (hbusy : s.receiver.mainalgisfree = false)
      (hgui : ∀ e ∈ gui, e = .activateGUI) :
      Step s .leaveEvents
        { s with receiver := { s.receiver with newPacket := true, phase := .status } } gui
  | endOfLoop (h : s.receiver.phase = .lastEvents) :
      Step s .leaveEvents { s with receiver := { s.receiver with phase := .receiving } } []
  | status (h : s.receiver.phase = .status) (hs : ∀ e ∈ fps, ∃ message, e = .updateSSLFPS message) :
      Step s (.status clock clock')
        { s with receiver := { s.receiver with timerM, timeCount, phase := .lastEvents } } fps
  | redeliver (h : s.receiver.InEvents) (hq : 0 < s.mainAlgFree) (hn : s.receiver.newPacket = true)
      (hm : s.receiver.maxPacketFrequencyMod = true) :
      Step s .mainAlgFree
        { s with
          receiver := { s.receiver with mainalgisfree := false, newPacket := false }
          activateMA := s.activateMA ++ [s.receiver.packetssl]
          mainAlgFree := s.mainAlgFree - 1 }
        [.activateMA s.receiver.packetssl]
  | free (h : s.receiver.InEvents) (hq : 0 < s.mainAlgFree)
      (hn : s.receiver.newPacket = false ∨ s.receiver.maxPacketFrequencyMod = false) :
      Step s .mainAlgFree
        { s with
          receiver := { s.receiver with mainalgisfree := true }
          mainAlgFree := s.mainAlgFree - 1 } []
  | changeMode (h : s.receiver.InEvents) :
      Step s (.changeMaxPacketFrequencyMod state)
        { s with receiver := { s.receiver with maxPacketFrequencyMod := state } } []
  | stopReceiver (h : s.receiver.InEvents) :
      Step s .stopReceiver { s with receiver := { s.receiver with shutdownread := true } } []
  | startRun (h : s.activateMA = packetssl :: queued) (hidle : s.runs.head? ≠ some .working) :
      Step s .startRun { s with activateMA := queued, runs := .working :: s.runs } []
  | skipRun (h : s.activateMA = packetssl :: queued) (hidle : s.runs.head? ≠ some .working) :
      Step s .startRun { s with activateMA := queued } []
  | enterEvents (h : s.runs = .working :: outer) :
      Step s .enterEvents { s with runs := .inEvents :: outer } []
  | finishRun (h : s.runs = .inEvents :: outer) :
      Step s .finishRun { s with runs := outer, mainAlgFree := s.mainAlgFree + 1 } []
  | startMainAlg : Step s .startMainAlg { s with shutdowncomp := false } []
  | stopMainAlg : Step s .stopMainAlg { s with shutdowncomp := true } []

theorem post_quiet (s : HandOff) (w : ReceiverWorker) {evs : List ReceiverEvent}
    (h : ∀ e ∈ evs, packet? e = none) : s.post (w, evs) = ({ s with receiver := w }, evs) := by
  have hnone : evs.filterMap packet? = [] := List.filterMap_eq_nil_iff.mpr h
  simp [post, hnone]

theorem receive_sound {s s' : HandOff} {packet : SSLWrapperPacket} {evs : List ReceiverEvent}
    (hphase : s.receiver.phase = .receiving)
    (h : (s.receiver.receive packet).map s.post = some (s', evs)) :
    Step s (.receive (some packet)) s' evs := by
  obtain ⟨r, hr, hpost⟩ := Option.map_eq_some_iff.mp h
  unfold ReceiverWorker.receive at hr
  split at hr
  · rename_i hg
    cases hr
    rw [post_quiet _ _ (by simp [packet?])] at hpost
    cases hpost
    exact .geometry hphase hg
  · rename_i hg hd
    obtain ⟨p, hm, hr⟩ := Option.bind_eq_some_iff.mp hr
    cases hr
    rw [post_quiet _ _ (by simp [packet?])] at hpost
    cases hpost
    exact .detection hphase hg hd hm
  · rename_i hg hd
    cases hr
    rw [post_quiet _ _ (by simp)] at hpost
    cases hpost
    exact .neither hphase hg hd

theorem handOff_sound {s s' : HandOff} {evs : List ReceiverEvent}
    (hphase : s.receiver.phase = .firstEvents) (h : s.post s.receiver.handOff = (s', evs)) :
    Step s .leaveEvents s' evs := by
  unfold ReceiverWorker.handOff at h
  split at h
  · cases h
    exact .deliver hphase ‹_›
  · rename_i hbusy
    rw [post_quiet _ _ (by split <;> simp [packet?])] at h
    cases h
    exact .keep hphase (Bool.eq_false_of_not_eq_true hbusy) (by split <;> simp)

theorem status_sound {s s' : HandOff} {clock clock' : Int} {evs : List ReceiverEvent}
    (hphase : s.receiver.phase = .status) (h : s.post (s.receiver.status clock clock') = (s', evs)) :
    Step s (.status clock clock') s' evs := by
  unfold ReceiverWorker.status at h
  split at h <;> rw [post_quiet _ _ (by simp [packet?])] at h <;> cases h
  · exact .status hphase (by simp)
  · exact .status hphase (by simp)

theorem mainAlgFree_sound {s s' : HandOff} {evs : List ReceiverEvent} (hin : s.receiver.InEvents)
    (hq : 0 < s.mainAlgFree)
    (h : { s with mainAlgFree := s.mainAlgFree - 1 }.post s.receiver.mainAlgFree = (s', evs)) :
    Step s .mainAlgFree s' evs := by
  unfold ReceiverWorker.mainAlgFree at h
  split at h
  · rename_i hboth
    cases h
    rw [Bool.and_eq_true] at hboth
    exact .redeliver hin hq hboth.1 hboth.2
  · rename_i hboth
    rw [post_quiet _ _ (by simp)] at h
    cases h
    rw [Bool.and_eq_true, not_and_or, Bool.not_eq_true, Bool.not_eq_true] at hboth
    exact .free hin hq hboth

theorem step_sound {s s' : HandOff} {a : HandOffAct} {evs : List ReceiverEvent}
    (h : step s a = some (s', evs)) : Step s a s' evs := by
  cases a <;> simp only [step] at h
  case receive packet? =>
    split at h
    · rename_i hguard
      cases packet? with
      | none =>
        cases h
        exact .nothing hguard.1
      | some packet => exact receive_sound hguard.1 h
    · cases h
  case leaveEvents =>
    split at h
    · exact handOff_sound ‹_› (Option.some.inj h)
    · cases h
      exact .endOfLoop ‹_›
    · cases h
  case status =>
    split at h
    · exact status_sound ‹_› (Option.some.inj h)
    · cases h
  case mainAlgFree =>
    split at h
    · rename_i hguard
      exact mainAlgFree_sound hguard.1 hguard.2 (Option.some.inj h)
    · cases h
  case changeMaxPacketFrequencyMod =>
    split at h
    · cases h
      exact .changeMode ‹_›
    · cases h
  case stopReceiver =>
    split at h
    · cases h
      exact .stopReceiver ‹_›
    · cases h
  case startRun =>
    split at h
    · cases h
    · rename_i hqueue
      split at h
      · cases h
      · split at h <;> cases h
        · exact .skipRun hqueue ‹_›
        · exact .startRun hqueue ‹_›
  case enterEvents =>
    split at h
    · cases h
      exact .enterEvents ‹_›
    · cases h
  case finishRun =>
    split at h
    · cases h
      exact .finishRun ‹_›
    · cases h
  case startMainAlg =>
    split at h <;> cases h
    exact .startMainAlg
  case stopMainAlg =>
    split at h <;> cases h
    exact .stopMainAlg

theorem step_detection {s : HandOff} {packet : SSLWrapperPacket} {d : SSLDetectionFrame}
    {p : PacketSSL} (hphase : s.receiver.phase = .receiving)
    (hup : s.receiver.shutdownread = false) (hg : packet.geometry = none)
    (hd : packet.detection = some d) (hm : mergeDetection s.receiver.packetssl d = some p) :
    step s (.receive (some packet)) = some
      ({ s with receiver := { s.receiver with
          timeCount := s.receiver.timeCount + 1
          packetsNum := s.receiver.packetsNum + 1
          packetssl := p
          phase := .firstEvents } }, [.merged]) := by
  simp [step, hphase, hup, ReceiverWorker.receive, hg, hd, hm, post, packet?]

-- ---------------------------------------------------------------------------
-- One hand-off at a time
-- ---------------------------------------------------------------------------

/-- Queued `activateMA`, executing runs and queued `mainAlgFree`, together. -/
def inFlight (s : HandOff) : Nat := s.activateMA.length + s.runs.length + s.mainAlgFree

/-- At most one of them, and none while the algorithm counts as free. -/
structure OneInFlight (s : HandOff) : Prop where
  le_one : s.inFlight ≤ 1
  free : s.receiver.mainalgisfree = true → s.inFlight = 0

theorem Step.oneInFlight {s s' : HandOff} {a : HandOffAct} {evs : List ReceiverEvent}
    (h : Step s a s' evs) (hs : OneInFlight s) : OneInFlight s' := by
  obtain ⟨hle, hfree⟩ := hs
  simp only [inFlight] at hle hfree
  cases h with
  | deliver _ hf =>
    have := hfree hf
    constructor <;> simp only [inFlight, List.length_append, List.length_singleton] <;> grind
  | redeliver _ hq =>
    constructor <;> simp only [inFlight, List.length_append, List.length_singleton] <;> grind
  | free _ hq => constructor <;> simp only [inFlight] <;> omega
  | startRun hq | skipRun hq =>
    simp only [hq, List.length_cons] at hle hfree
    constructor <;> simp only [inFlight, List.length_cons] <;> grind
  | enterEvents hr | finishRun hr =>
    simp only [hr, List.length_cons] at hle hfree
    constructor <;> simp only [inFlight, List.length_cons] <;> grind
  | _ => exact ⟨hle, hfree⟩

theorem oneInFlight_of_run {clock : Int} {shutdowncomp : Bool} {acts : List HandOffAct} {s : HandOff}
    {log : List (List ReceiverEvent)} (h : run (.start clock shutdowncomp) acts = some (s, log)) :
    OneInFlight s := by
  refine Machine.run_invariant (I := fun s _ => OneInFlight s) ?_ ?_ h
  · exact ⟨Nat.zero_le 1, fun _ => rfl⟩
  · intro t outs a t' out ht hstep
    exact (step_sound hstep).oneInFlight ht

-- ---------------------------------------------------------------------------
-- No merged frame is lost
-- ---------------------------------------------------------------------------

def lastActivated (log : List ReceiverEvent) : Option PacketSSL := Log.latest packet? log

@[simp] theorem lastActivated_append (log evs : List ReceiverEvent) :
    lastActivated (log ++ evs) = (lastActivated evs).or (lastActivated log) := by
  simp [lastActivated]

structure Untouched (s : HandOff) (log : List ReceiverEvent) : Prop where
  newPacket : s.receiver.newPacket = true → .merged ∈ log
  firstEvents : s.receiver.phase = .firstEvents → .merged ∈ log

theorem Step.untouched {s s' : HandOff} {a : HandOffAct} {evs log : List ReceiverEvent}
    (h : Step s a s' evs) (hs : Untouched s log) : Untouched s' (log ++ evs) := by
  obtain ⟨hnew, hfirst⟩ := hs
  cases h <;> constructor <;> simp_all

/-- While every packet is wanted: outside the window between a merge and the
test that follows it, either a packet is marked as undelivered or the last
one delivered is the current one. -/
structure Delivered (s : HandOff) (log : List ReceiverEvent) : Prop where
  mode : s.receiver.maxPacketFrequencyMod = true
  free : s.receiver.mainalgisfree = true → s.receiver.newPacket = false
  current : s.receiver.phase ≠ .firstEvents → s.receiver.newPacket = false → .merged ∈ log →
    lastActivated log = some s.receiver.packetssl

theorem Step.delivered {s s' : HandOff} {a : HandOffAct} {evs log : List ReceiverEvent}
    (h : Step s a s' evs) (ha : a ≠ .changeMaxPacketFrequencyMod false) (hs : Delivered s log) :
    Delivered s' (log ++ evs) := by
  obtain ⟨hmode, hfree, hcurrent⟩ := hs
  cases h with
  | nothing | endOfLoop | stopReceiver | startRun | skipRun | enterEvents | finishRun
  | startMainAlg | stopMainAlg => constructor <;> simp_all
  | geometry | neither => constructor <;> simp_all [lastActivated, packet?]
  | detection => constructor <;> simp_all
  | deliver => constructor <;> simp_all [lastActivated, packet?]
  | keep => constructor <;> simp_all
  | status hp hquiet =>
    have hlast : lastActivated evs = none := by
      refine Log.latest_eq_none.mpr fun e he => ?_
      obtain ⟨message, rfl⟩ := hquiet e he
      rfl
    have hmerged : .merged ∉ evs := by
      intro hm
      obtain ⟨message, hmessage⟩ := hquiet _ hm
      cases hmessage
    constructor <;> simp_all
  | redeliver => constructor <;> simp_all [lastActivated, packet?]
  | free => constructor <;> simp_all
  | @changeMode state _ =>
    cases state with
    | false => exact absurd rfl ha
    | true => constructor <;> simp_all

theorem delivered_of_run {clock : Int} {shutdowncomp : Bool} {before after : List HandOffAct}
    {s₁ s₂ : HandOff} {log₁ log₂ : List (List ReceiverEvent)}
    (h₁ : run (.start clock shutdowncomp) before = some (s₁, log₁))
    (h₂ : run s₁ after = some (s₂, log₂))
    (hmode : s₁.receiver.maxPacketFrequencyMod = true) (hmerged : .merged ∉ log₁.flatten)
    (hoff : .changeMaxPacketFrequencyMod false ∉ after) :
    Delivered s₂ (log₁.flatten ++ log₂.flatten) := by
  have huntouched : Untouched s₁ log₁.flatten := by
    refine Machine.run_invariant (I := fun s log => Untouched s log.flatten) ?_ ?_ h₁
    · constructor <;> simp [start, ReceiverWorker.start]
    · intro t outs a t' out ht hstep
      simpa using (step_sound hstep).untouched ht
  refine Machine.run_invariant_of (I := fun s log => Delivered s (log₁.flatten ++ log.flatten))
    (C := fun _ a => a ≠ .changeMaxPacketFrequencyMod false) ?_ ?_ ?_ h₂
  · refine ⟨hmode, fun _ => ?_, fun _ _ hm => absurd (by simpa using hm) hmerged⟩
    exact Bool.eq_false_of_not_eq_true fun hnew => hmerged (huntouched.newPacket hnew)
  · intro t outs a t' out ht ha hstep
    simpa using (step_sound hstep).delivered ha ht
  · rintro earlier a later t outs rfl -
    rintro rfl
    exact hoff (by simp)

/-- The hand-off is exclusive, so `run` is never entered from its own
`processEvents`; and if every packet is wanted from before the first merge on,
the algorithm is free at the end of an iteration only when it has been given
the current packet. -/
theorem handOff_exclusive_and_lossless (clock : Int) (shutdowncomp : Bool) (acts : List HandOffAct)
    (s : HandOff) (log : List (List ReceiverEvent))
    (h : run (.start clock shutdowncomp) acts = some (s, log)) :
    (s.inFlight ≤ 1 ∧ (s.receiver.mainalgisfree = true → s.inFlight = 0)) ∧
      (s.runs ≠ [] → step s .startRun = none) ∧
      ∀ before after s₁ log₁, acts = before ++ after →
        run (.start clock shutdowncomp) before = some (s₁, log₁) →
        s₁.receiver.maxPacketFrequencyMod = true → .merged ∉ log₁.flatten →
        .changeMaxPacketFrequencyMod false ∉ after →
        s.receiver.phase = .receiving → s.receiver.mainalgisfree = true → .merged ∈ log.flatten →
        lastActivated log.flatten = some s.receiver.packetssl := by
  have hone := oneInFlight_of_run h
  refine ⟨⟨hone.le_one, hone.free⟩, fun hruns => ?_, ?_⟩
  · have hle := hone.le_one
    have hpos := List.length_pos_iff.mpr hruns
    have hempty : s.activateMA = [] := by
      rw [← List.length_eq_zero_iff]
      simp only [inFlight] at hle
      omega
    simp [step, hempty]
  · rintro before after s₁ log₁ rfl hbefore hmode hmerged hoff hphase hfree hsome
    obtain ⟨t, outs₁, outs₂, h₁, h₂, rfl⟩ := Machine.run_append.mp h
    obtain ⟨rfl, rfl⟩ : s₁ = t ∧ log₁ = outs₁ := by simpa using hbefore.symm.trans h₁
    have hdelivered := delivered_of_run h₁ h₂ hmode hmerged hoff
    rw [List.flatten_append] at hsome ⊢
    exact hdelivered.current (by simp [hphase]) (hdelivered.free hfree) hsome

theorem handOff_exclusive_and_lossless_one_frame :
    let frame : SSLDetectionFrame := ⟨0, [⟨.ofInt 5, .ofInt 6⟩], [], []⟩
    let before : List HandOffAct := [.receive (some ⟨none, none⟩), .status 0 0,
      .changeMaxPacketFrequencyMod true, .leaveEvents]
    let after : List HandOffAct := [.receive (some ⟨some frame, none⟩), .leaveEvents, .startRun,
      .enterEvents, .finishRun, .status 0 0, .mainAlgFree, .leaveEvents]
    ∃ s log, run (.start 0 false) (before ++ after) = some (s, log) ∧
      s.receiver.mainalgisfree = true ∧ lastActivated log.flatten = some s.receiver.packetssl := by
  intro frame before after
  refine ⟨_, _, rfl, rfl, ?_⟩
  refine (handOff_exclusive_and_lossless 0 false (before ++ after) _ _ rfl).2.2 before after _ _ rfl
    rfl rfl ?_ (by simp [after]) rfl rfl ?_
  · exact List.not_mem_nil
  · simp

-- ---------------------------------------------------------------------------
-- Duplicate deliveries
-- ---------------------------------------------------------------------------

/-- Between two `activateMA` signals a detection was merged. -/
def FreshDeliveries (log : List ReceiverEvent) : Prop :=
  ∀ before p between q after,
    log = before ++ .activateMA p :: (between ++ .activateMA q :: after) → .merged ∈ between

def Fresh (log : List ReceiverEvent) : Prop :=
  ∀ before p since, log = before ++ .activateMA p :: since → .merged ∈ since

theorem fresh_merged (log : List ReceiverEvent) : Fresh (log ++ [.merged]) := by
  intro before p since heq
  obtain ⟨-, he, -⟩ | ⟨since', rfl, -⟩ := Log.append_singleton_eq_split heq
  · cases he
  · simp

theorem Fresh.quiet {log evs : List ReceiverEvent} (h : Fresh log)
    (hevs : ∀ e ∈ evs, packet? e = none) : Fresh (log ++ evs) := by
  induction evs using List.reverseRecOn with
  | nil => simpa using h
  | append_singleton evs e ih =>
    intro before p since heq
    rw [← List.append_assoc] at heq
    obtain ⟨-, rfl, -⟩ | ⟨since', rfl, hlog⟩ := Log.append_singleton_eq_split heq
    · have := hevs (.activateMA p) (by simp)
      cases this
    · have := ih (fun e he => hevs e (by simp [he])) before p since' hlog
      simp [this]

theorem FreshDeliveries.quiet {log evs : List ReceiverEvent} (h : FreshDeliveries log)
    (hevs : ∀ e ∈ evs, packet? e = none) : FreshDeliveries (log ++ evs) := by
  induction evs using List.reverseRecOn with
  | nil => simpa using h
  | append_singleton evs e ih =>
    intro before p between q after heq
    rw [← List.append_assoc, ← List.cons_append, ← List.append_assoc] at heq
    obtain ⟨-, rfl, -⟩ | ⟨after', rfl, hlog⟩ := Log.append_singleton_eq_split heq
    · have := hevs (.activateMA q) (by simp)
      cases this
    · exact ih (fun e he => hevs e (by simp [he])) before p between q after' (by simpa using hlog)

theorem FreshDeliveries.activate {log : List ReceiverEvent} (h : FreshDeliveries log)
    (hfresh : Fresh log) (p : PacketSSL) : FreshDeliveries (log ++ [.activateMA p]) := by
  intro before p' between q after heq
  rw [← List.cons_append, ← List.append_assoc] at heq
  obtain ⟨rfl, -, hlog⟩ | ⟨after', rfl, hlog⟩ := Log.append_singleton_eq_split heq
  · exact hfresh before p' between hlog
  · exact h before p' between q after' (by simpa using hlog)

structure NoDuplicate (s : HandOff) (log : List ReceiverEvent) : Prop where
  deliveries : FreshDeliveries log
  firstEvents : s.receiver.phase = .firstEvents → Fresh log
  newPacket : s.receiver.newPacket = true → Fresh log

/-- The slot is not about to deliver a packet between its merge and the test
that follows. -/
def NoEarlySlot (s : HandOff) (a : HandOffAct) : Prop :=
  a = .mainAlgFree → s.receiver.phase = .firstEvents → s.receiver.newPacket = true →
    s.receiver.maxPacketFrequencyMod = false

theorem Step.noDuplicate {s s' : HandOff} {a : HandOffAct} {evs log : List ReceiverEvent}
    (h : Step s a s' evs) (ha : NoEarlySlot s a) (hs : NoDuplicate s log) :
    NoDuplicate s' (log ++ evs) := by
  obtain ⟨hdel, hfirst, hnew⟩ := hs
  cases h with
  | nothing | endOfLoop | free | changeMode | stopReceiver | startRun | skipRun | enterEvents
  | finishRun | startMainAlg | stopMainAlg => constructor <;> simp_all
  | geometry | neither =>
    refine ⟨hdel.quiet (by simp [packet?]), by simp, fun h => ?_⟩
    exact (hnew h).quiet (by simp [packet?])
  | detection =>
    exact ⟨hdel.quiet (by simp [packet?]), fun _ => fresh_merged log, fun _ => fresh_merged log⟩
  | deliver hp =>
    refine ⟨?_, by simp, by simp⟩
    rw [← List.singleton_append, ← List.append_assoc]
    exact (hdel.activate (hfirst hp) _).quiet (by simp [packet?])
  | keep hp _ hgui =>
    have hquiet : ∀ e ∈ evs, packet? e = none := fun e he => by rw [hgui e he]; rfl
    exact ⟨hdel.quiet hquiet, by simp, fun _ => (hfirst hp).quiet hquiet⟩
  | status _ hfps =>
    have hquiet : ∀ e ∈ evs, packet? e = none := fun e he => by
      obtain ⟨message, rfl⟩ := hfps e he
      rfl
    exact ⟨hdel.quiet hquiet, by simp, fun h => (hnew h).quiet hquiet⟩
  | redeliver _ _ hn hm =>
    refine ⟨hdel.activate (hnew hn) _, fun hp => ?_, by simp⟩
    have := ha rfl hp hn
    rw [hm] at this
    cases this

/-- Deliveries are fresh in every run in which no slot delivers a packet
between its merge and the test that follows. -/
theorem freshDeliveries_of_noEarlySlot (clock : Int) (shutdowncomp : Bool) (acts : List HandOffAct)
    (s : HandOff) (log : List (List ReceiverEvent))
    (h : run (.start clock shutdowncomp) acts = some (s, log))
    (hslot : Machine.Always step NoEarlySlot (.start clock shutdowncomp) acts) :
    FreshDeliveries log.flatten := by
  have hinv : NoDuplicate s log.flatten := by
    refine Machine.run_invariant_of (I := fun s log => NoDuplicate s log.flatten) (C := NoEarlySlot)
      ?_ ?_ hslot h
    · constructor <;> simp [start, ReceiverWorker.start, FreshDeliveries, Fresh]
    · intro t outs a t' out ht ha hstep
      simpa using (step_sound hstep).noDuplicate ha ht
  exact hinv.deliveries

-- ---------------------------------------------------------------------------
-- Two traces
-- ---------------------------------------------------------------------------

private def atRest (p : PacketSSL) (newPacket free mode : Bool) (n : Int) (phase : ReceiverPhase)
    (activateMA : List PacketSSL) (mainAlgFree : Nat) : HandOff :=
  ⟨⟨p, {}, newPacket, free, mode, false, 0, n, n, phase⟩, activateMA, [], mainAlgFree, false⟩

private def ballFrame : SSLDetectionFrame := ⟨0, [⟨.ofInt 5, .ofInt 6⟩], [], []⟩

private def receiveBall : HandOffAct := .receive (some ⟨some ballFrame, none⟩)

private theorem mergeDetection_ballFrame (p : PacketSSL) :
    ∃ p', mergeDetection p ballFrame = some p' := by
  have hids : ∀ side, ∀ robot ∈ ballFrame.robots side, robot.robotId.toNat < 12 := by
    intro side
    cases side <;> simp [SSLDetectionFrame.robots, ballFrame]
  obtain ⟨p', hp', -⟩ := mergeDetection_ok hids p
  exact ⟨p', hp'⟩

private theorem step_receiveBall {p p' : PacketSSL} (hm : mergeDetection p ballFrame = some p')
    (newPacket free mode : Bool) (n : Int) (activateMA : List PacketSSL) (mainAlgFree : Nat) :
    step (atRest p newPacket free mode n .receiving activateMA mainAlgFree) receiveBall =
      some (atRest p' newPacket free mode (n + 1) .firstEvents activateMA mainAlgFree, [.merged]) :=
  step_detection rfl rfl rfl rfl hm

theorem freshDeliveries_of_noEarlySlot_two_frames :
    let acts : List HandOffAct := [receiveBall, .leaveEvents, .startRun, .enterEvents, .finishRun,
      .status 0 0, .mainAlgFree, .leaveEvents] ++ [receiveBall, .leaveEvents]
    ∃ s log p q, run (.start 0 false) acts = some (s, log) ∧
      log.flatten = [.merged, .activateMA p, .activateGUI, .merged, .activateMA q, .activateGUI] ∧
      FreshDeliveries log.flatten := by
  intro acts
  obtain ⟨p, hp⟩ := mergeDetection_ballFrame .new
  obtain ⟨q, hq⟩ := mergeDetection_ballFrame p
  have hfirst := step_receiveBall hp false true false 0 [] 0
  have hsecond := step_receiveBall hq false true false 1 [] 0
  have hrun : run (.start 0 false) acts = some (_, _) :=
    Machine.run_append.mpr ⟨atRest p false true false 1 .receiving [] 0, _, _,
      Machine.run_cons.mpr ⟨_, _, _, hfirst, rfl, rfl⟩,
      Machine.run_cons.mpr ⟨_, _, _, hsecond, rfl, rfl⟩, rfl⟩
  refine ⟨_, _, p, q, hrun, rfl, freshDeliveries_of_noEarlySlot 0 false acts _ _ hrun ?_⟩
  refine .cons (fun ha => nomatch ha) fun t out h => ?_
  cases hfirst.symm.trans h
  iterate 5
    refine .cons (fun ha => nomatch ha) fun t out h => ?_
    cases h
  refine .cons (fun _ hp => nomatch hp) fun t out h => ?_
  cases h
  refine .cons (fun ha => nomatch ha) fun t out h => ?_
  cases h
  refine .cons (fun ha => nomatch ha) fun t out h => ?_
  cases hsecond.symm.trans h
  exact .cons (fun ha => nomatch ha) fun t out h => .nil

/-- The third frame is merged while the second is marked as undelivered; the
slot delivers both right away, the frame is marked once more, and the next
slot delivers the same packet again. -/
theorem not_freshDeliveries_early_slot :
    let acts : List HandOffAct :=
      [receiveBall, .leaveEvents, .status 0 0, .changeMaxPacketFrequencyMod true, .leaveEvents] ++
        ([receiveBall, .leaveEvents, .startRun, .enterEvents, .finishRun, .status 0 0, .leaveEvents] ++
          [receiveBall, .mainAlgFree, .leaveEvents, .startRun, .enterEvents, .finishRun, .status 0 0,
            .mainAlgFree])
    ∃ s log, run (.start 0 false) acts = some (s, log) ∧ ¬ FreshDeliveries log.flatten := by
  intro acts
  obtain ⟨p, hp⟩ := mergeDetection_ballFrame .new
  obtain ⟨q, hq⟩ := mergeDetection_ballFrame p
  obtain ⟨r, hr⟩ := mergeDetection_ballFrame q
  have hfirst := step_receiveBall hp false true false 0 [] 0
  have hsecond := step_receiveBall hq false false true 1 [p] 0
  have hthird := step_receiveBall hr true false true 2 [] 1
  have hrun : run (.start 0 false) acts = some (_, _) :=
    Machine.run_append.mpr ⟨atRest p false false true 1 .receiving [p] 0, _, _,
      Machine.run_cons.mpr ⟨_, _, _, hfirst, rfl, rfl⟩,
      Machine.run_append.mpr ⟨atRest q true false true 2 .receiving [] 1, _, _,
        Machine.run_cons.mpr ⟨_, _, _, hsecond, rfl, rfl⟩,
        Machine.run_cons.mpr ⟨_, _, _, hthird, rfl, rfl⟩, rfl⟩, rfl⟩
  refine ⟨_, _, hrun, fun h => ?_⟩
  have hmerged := h [.merged, .activateMA p, .activateGUI, .merged, .activateGUI, .merged] r
    [.activateGUI] r [] rfl
  simp at hmerged

end LARCmaCS.HandOff
