import LARCmaCS.HandOff

/-!
# What the receiver keeps of a stream of packets

A wrapper packet has two independent optional parts, and the receiver takes the
geometry or else the detection. `mergeAll_of_run`: in every run whose packets
carry at most one of the two, the packet held is the fold of the merge step
over the detections received, whatever the slots and the algorithm do in
between.
-/

namespace LARCmaCS

def HandOffAct.packet? : HandOffAct → Option SSLWrapperPacket
  | .receive packet? => packet?
  | _ => none

namespace HandOff

def received (acts : List HandOffAct) : List SSLWrapperPacket := acts.filterMap HandOffAct.packet?

def detections (packets : List SSLWrapperPacket) : List SSLDetectionFrame :=
  packets.filterMap (·.detection)

/-- The field of the last geometry; a receiver that has seen none keeps the
default. -/
def lastField (packets : List SSLWrapperPacket) : SSLGeometryFieldSize :=
  ((Log.latest (·.geometry) packets).map (·.field)).getD {}

def Separate (packet : SSLWrapperPacket) : Prop :=
  packet.geometry = none ∨ packet.detection = none

@[simp] theorem received_append_singleton (acts : List HandOffAct) (a : HandOffAct) :
    received (acts ++ [a]) = received acts ++ a.packet?.toList := by
  cases h : a.packet? <;> simp [received, h]

@[simp] theorem detections_append_singleton (packets : List SSLWrapperPacket)
    (packet : SSLWrapperPacket) :
    detections (packets ++ [packet]) = detections packets ++ packet.detection.toList := by
  cases h : packet.detection <;> simp [detections, h]

theorem lastField_append_singleton (packets : List SSLWrapperPacket) (packet : SSLWrapperPacket) :
    lastField (packets ++ [packet]) =
      (packet.geometry.map (·.field)).getD (lastField packets) := by
  cases h : packet.geometry <;> simp [lastField, h]

structure Holds (w : ReceiverWorker) (packets : List SSLWrapperPacket) : Prop where
  packetssl : mergeAll .new (detections packets) = some w.packetssl
  fieldsize : w.fieldsize = lastField packets

theorem Step.holds {s s' : HandOff} {a : HandOffAct} {evs : List ReceiverEvent}
    {packets : List SSLWrapperPacket} (h : Step s a s' evs) (ha : ∀ packet ∈ a.packet?, Separate packet)
    (hs : Holds s.receiver packets) : Holds s'.receiver (packets ++ a.packet?.toList) := by
  obtain ⟨hmerge, hfield⟩ := hs
  cases h with
  | @geometry geometry packet _ hg =>
    have hd : packet.detection = none := (ha packet rfl).resolve_left (by simp [hg])
    constructor <;>
      simp [HandOffAct.packet?, lastField_append_singleton, hmerge, hg, hd]
  | @detection d p packet _ hg hd hm =>
    constructor
    · simpa [HandOffAct.packet?, hd, mergeAll_append_singleton, hmerge] using hm
    · simp [HandOffAct.packet?, lastField_append_singleton, hfield, hg]
  | neither _ hg hd =>
    constructor <;>
      simp [HandOffAct.packet?, lastField_append_singleton, hmerge, hfield, hg, hd]
  | _ => exact ⟨by simpa [HandOffAct.packet?] using hmerge, by simpa [HandOffAct.packet?] using hfield⟩

/-- No detection is dropped in a run whose packets carry at most one part. -/
theorem mergeAll_of_run (clock : Int) (shutdowncomp : Bool) (acts : List HandOffAct) (s : HandOff)
    (log : List (List ReceiverEvent)) (h : run (.start clock shutdowncomp) acts = some (s, log))
    (hseparate : ∀ packet ∈ received acts, Separate packet) :
    mergeAll .new (detections (received acts)) = some s.receiver.packetssl ∧
      s.receiver.fieldsize = lastField (received acts) := by
  have hinv : Holds s.receiver (received acts) := by
    refine Machine.run_induction_of (I := fun acts s _ => Holds s.receiver (received acts))
      (C := fun _ a => ∀ packet ∈ a.packet?, Separate packet) ⟨rfl, rfl⟩ ?_ ?_ h
    · intro earlier t outs a t' out ht ha hstep
      rw [received_append_singleton]
      exact (step_sound hstep).holds ha ht
    · rintro earlier a later t outs rfl - packet hpacket
      refine hseparate packet ?_
      simp only [received, List.filterMap_append, List.filterMap_cons, Option.mem_def.mp hpacket]
      simp
  exact ⟨hinv.packetssl, hinv.fieldsize⟩

-- ---------------------------------------------------------------------------
-- Every stream has a run
-- ---------------------------------------------------------------------------

structure Ready (w : ReceiverWorker) (packetssl : PacketSSL) : Prop where
  phase : w.phase = .receiving
  reading : w.shutdownread = false
  packetssl : w.packetssl = packetssl

theorem step_endOfLoop {s : HandOff} (h : s.receiver.phase = .lastEvents) :
    step s .leaveEvents =
      some ({ s with receiver := { s.receiver with phase := .receiving } }, []) := by
  simp only [step, h]

theorem run_status {s : HandOff} {p : PacketSSL} (hphase : s.receiver.phase = .status)
    (hread : s.receiver.shutdownread = false) (hp : s.receiver.packetssl = p) :
    ∃ s' log, run s [.status 0 0, .leaveEvents] = some (s', log) ∧ Ready s'.receiver p := by
  have hstatus : ∀ r, s.receiver.status 0 0 = r → r.1.phase = .lastEvents ∧
      r.1.shutdownread = false ∧ r.1.packetssl = p := by
    rintro r rfl
    unfold ReceiverWorker.status
    split <;> exact ⟨rfl, hread, hp⟩
  obtain ⟨hlast, hread', hp'⟩ := hstatus _ rfl
  have hfirst : step s (.status 0 0) = some (s.post (s.receiver.status 0 0)) := by
    simp [step, hphase]
  exact ⟨_, _, Machine.run_cons.mpr ⟨_, _, _, hfirst,
    Machine.run_cons.mpr ⟨_, _, _, step_endOfLoop hlast, rfl, rfl⟩, rfl⟩, rfl, hread', hp'⟩

theorem run_receive {s : HandOff} {p : PacketSSL} (h : Ready s.receiver p)
    {packet : SSLWrapperPacket} {r : ReceiverWorker × List ReceiverEvent}
    (hr : s.receiver.receive packet = some r) :
    ∃ rest s' log, run s (.receive (some packet) :: rest) = some (s', log) ∧ received rest = [] ∧
      Ready s'.receiver r.1.packetssl := by
  have hfirst : step s (.receive (some packet)) = some (s.post r) := by
    simp [step, h.phase, h.reading, hr]
  have hphase : r.1.shutdownread = false ∧ (r.1.phase = .status ∨ r.1.phase = .firstEvents) := by
    unfold ReceiverWorker.receive at hr
    split at hr
    · cases hr
      exact ⟨h.reading, .inl rfl⟩
    · obtain ⟨p', -, hr⟩ := Option.bind_eq_some_iff.mp hr
      cases hr
      exact ⟨h.reading, .inr rfl⟩
    · cases hr
      exact ⟨h.reading, .inl rfl⟩
  obtain ⟨hread, hstatus | hevents⟩ := hphase
  · obtain ⟨s', log, hrun, hready⟩ := run_status (s := (s.post r).1) hstatus hread rfl
    exact ⟨_, s', _, Machine.run_cons.mpr ⟨_, _, _, hfirst, hrun, rfl⟩, rfl, hready⟩
  · have hleave : step (s.post r).1 .leaveEvents = some ((s.post r).1.post r.1.handOff) := by
      simp only [step, post, hevents]
    have hhandOff : r.1.handOff.1.phase = .status ∧ r.1.handOff.1.shutdownread = false ∧
        r.1.handOff.1.packetssl = r.1.packetssl := by
      unfold ReceiverWorker.handOff
      split <;> exact ⟨rfl, hread, rfl⟩
    obtain ⟨s', log, hrun, hready⟩ := run_status (s := ((s.post r).1.post r.1.handOff).1)
      hhandOff.1 hhandOff.2.1 hhandOff.2.2
    exact ⟨_, s', _, Machine.run_cons.mpr ⟨_, _, _, hfirst,
      Machine.run_cons.mpr ⟨_, _, _, hleave, hrun, rfl⟩, rfl⟩, rfl, hready⟩

/-- Every stream whose detections the merge step accepts is received by some
run. -/
theorem exists_run_received (clock : Int) (shutdowncomp : Bool) (packets : List SSLWrapperPacket)
    (h : ∀ d ∈ detections packets, ∀ side, ∀ robot ∈ d.robots side, robot.robotId.toNat < 12) :
    ∃ acts s log, run (.start clock shutdowncomp) acts = some (s, log) ∧ received acts = packets ∧
      ∃ p, Ready s.receiver p := by
  induction packets using List.reverseRecOn with
  | nil => exact ⟨[], _, _, rfl, rfl, _, rfl, rfl, rfl⟩
  | append_singleton packets packet ih =>
    rw [detections_append_singleton] at h
    obtain ⟨acts, s, log, hrun, hreceived, p, hready⟩ := ih fun d hd => h d (by simp [hd])
    obtain ⟨r, hr⟩ : ∃ r, s.receiver.receive packet = some r := by
      unfold ReceiverWorker.receive
      split
      · exact ⟨_, rfl⟩
      · rename_i detection _ hd
        obtain ⟨p', hp', -⟩ :=
          mergeDetection_ok (h detection (by simp [hd])) s.receiver.packetssl
        exact ⟨_, by rw [hp']; rfl⟩
      · exact ⟨_, rfl⟩
    obtain ⟨rest, s', log', hmore, hrest, hready'⟩ := run_receive hready hr
    refine ⟨_, s', _, Machine.run_append.mpr ⟨s, _, _, hrun, hmore, rfl⟩, ?_, _, hready'⟩
    simp only [received] at hreceived hrest
    simp [received, hreceived, hrest, HandOffAct.packet?]

theorem mergeAll_of_run_two_packets :
    let geometry : SSLGeometryData := ⟨{ fieldLength := 9000 }⟩
    let frame : SSLDetectionFrame := ⟨0, [⟨.ofInt 5, .ofInt 6⟩], [], []⟩
    let acts : List HandOffAct := [.receive (some ⟨some frame, none⟩), .leaveEvents, .status 0 0,
      .leaveEvents, .receive (some ⟨none, some geometry⟩)]
    ∃ s log, run (.start 0 false) acts = some (s, log) ∧
      mergeAll .new [frame] = some s.receiver.packetssl ∧ s.receiver.fieldsize = geometry.field := by
  intro geometry frame acts
  refine ⟨_, _, rfl, mergeAll_of_run 0 false acts _ _ rfl ?_⟩
  simp [received, acts, HandOffAct.packet?, Separate]

theorem not_mergeAll_both_parts :
    let frame : SSLDetectionFrame := ⟨0, [⟨.ofInt 5, .ofInt 6⟩], [], []⟩
    let acts : List HandOffAct := [.receive (some ⟨some frame, some ⟨{}⟩⟩)]
    ∃ s log, run (.start 0 false) acts = some (s, log) ∧
      mergeAll .new (detections (received acts)) ≠ some s.receiver.packetssl := by
  intro frame acts
  refine ⟨_, _, rfl, fun h => ?_⟩
  have hmerge : mergeDetection .new frame = some .new := by
    simpa [mergeAll, detections, received, acts, HandOffAct.packet?, start,
      ReceiverWorker.start] using h
  have hballs := congrFun (mergeDetection_eq_some.mp hmerge).1 0
  have htag : Double.ofInt 0 = .ofInt 1 := hballs.trans (by decide)
  exact absurd (Double.ofInt_inj.mp htag) (by decide)

end HandOff

end LARCmaCS
