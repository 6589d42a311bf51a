import LARCmaCS.Lib.Machine
import LARCmaCS.Message

/-!
# Robot announcements

`ConnectorWorker::udpProcessPendingDatagrams` of `connector.cpp`: a robot
announces its MAC address in a datagram `mac <address>`, and the worker records
the sender of the first announcement of each address. The second token is read
without a test for its presence (`handlesSafely_iff`).
-/

namespace LARCmaCS

abbrev QString := List (BitVec 16)

structure Datagram (Address : Type*) where
  payload : QByteArray
  sender : Address

structure ConnectorWorker where
  macIP : QString → Option QString
  macList : List QString

/-- The functions of Qt that turn a payload and an address into text. -/
structure QtText (Address : Type*) where
  fromUtf8 : QByteArray → QString
  toString : Address → QString

namespace ConnectorWorker

variable {Address : Type*} (qt : QtText Address)

def new : ConnectorWorker := ⟨fun _ => none, []⟩

def macToken : QString := [0x6D, 0x61, 0x63]

/-- `str.split(' ')` -/
def tokens (d : Datagram Address) : List QString := (qt.fromUtf8 d.payload).splitOn 0x20

def addRobot (w : ConnectorWorker) (mac ip : QString) : ConnectorWorker where
  macList := w.macList ++ [mac]
  macIP := Function.update w.macIP mac (some ip)

/-- One round of the loop, with the addresses it emits by `robotAdded`. An
access outside the tokens has no result. -/
def processDatagram (w : ConnectorWorker) (d : Datagram Address) :
    Option (ConnectorWorker × List QString) := do
  let lst := tokens qt d
  let first ← lst[0]?
  if first = macToken then
    let mac ← lst[1]?
    if mac ∉ w.macList then some (w.addRobot mac (qt.toString d.sender), [mac])
    else some (w, [])
  else some (w, [])

def udpProcessPendingDatagrams (w : ConnectorWorker) (pending : List (Datagram Address)) :
    Option (ConnectorWorker × List QString) :=
  (Machine.run (processDatagram qt) w pending).map fun (w, robotAdded) => (w, robotAdded.flatten)

-- ---------------------------------------------------------------------------
-- The announcements
-- ---------------------------------------------------------------------------

def announcement (d : Datagram Address) : Option (QString × QString) :=
  match tokens qt d with
  | first :: mac :: _ => if first = macToken then some (mac, qt.toString d.sender) else none
  | _ => none

/-- What the worker has recorded and emitted after the given announcements. -/
structure Recorded (announced : List (QString × QString)) (w : ConnectorWorker)
    (robotAdded : List QString) : Prop where
  nodup : w.macList.Nodup
  mem_iff : ∀ mac, mac ∈ w.macList ↔ ∃ ip, (mac, ip) ∈ announced
  macIP : ∀ mac ∈ w.macList, w.macIP mac = announced.lookup mac
  robotAdded : ∀ mac, robotAdded.count mac = if mac ∈ w.macList then 1 else 0

/-- No call leaves the tokens, and the announcements are recorded. -/
def HandlesSafely (calls : List (List (Datagram Address))) : Prop :=
  ∃ w robotAdded, Machine.run (udpProcessPendingDatagrams qt) new calls = some (w, robotAdded) ∧
    Recorded (calls.flatten.filterMap (announcement qt)) w robotAdded.flatten

-- ---------------------------------------------------------------------------
-- One datagram
-- ---------------------------------------------------------------------------

variable {qt} {w w' : ConnectorWorker} {d : Datagram Address} {mac ip : QString}
  {announced : List (QString × QString)} {emitted out : List QString}

theorem tokens_eq_singleton_macToken :
    tokens qt d = [macToken] ↔ qt.fromUtf8 d.payload = macToken := by
  constructor
  · intro h
    have hjoin : [0x20].intercalate (tokens qt d) = qt.fromUtf8 d.payload :=
      List.intercalate_splitOn _
    rw [← hjoin, h]
    rfl
  · intro h
    rw [tokens, h]
    exact List.splitOn_eq_singleton (by decide)

/-- What a round does: it records an announcement, passes over one that is
known or a datagram that is none, or leaves the tokens. -/
theorem processDatagram_eq (w : ConnectorWorker) (d : Datagram Address) :
    processDatagram qt w d =
      if tokens qt d = [macToken] then none
      else match announcement qt d with
        | some (mac, ip) =>
          if mac ∈ w.macList then some (w, []) else some (w.addRobot mac ip, [mac])
        | none => some (w, []) := by
  rw [processDatagram, announcement]
  rcases htokens : tokens qt d with _ | ⟨first, _ | ⟨mac, rest⟩⟩
  · exact absurd htokens (List.splitOn_ne_nil _ _)
  · by_cases hfirst : first = macToken <;> simp [hfirst]
  · by_cases hfirst : first = macToken
    · by_cases hmac : mac ∈ w.macList <;> simp [hfirst, hmac]
    · simp [hfirst]

theorem exists_processDatagram (h : qt.fromUtf8 d.payload ≠ macToken) (w : ConnectorWorker) :
    ∃ next, processDatagram qt w d = some next := by
  rw [processDatagram_eq, if_neg (mt tokens_eq_singleton_macToken.mp h)]
  split
  · split <;> exact ⟨_, rfl⟩
  · exact ⟨_, rfl⟩

theorem fromUtf8_ne_of_processDatagram {next : ConnectorWorker × List QString}
    (h : processDatagram qt w d = some next) : qt.fromUtf8 d.payload ≠ macToken := by
  intro htext
  rw [processDatagram_eq, if_pos (tokens_eq_singleton_macToken.mpr htext)] at h
  cases h

-- ---------------------------------------------------------------------------
-- What is recorded
-- ---------------------------------------------------------------------------

theorem recorded_new : Recorded [] new [] where
  nodup := List.nodup_nil
  mem_iff mac := by simp [new]
  macIP mac h := absurd h List.not_mem_nil
  robotAdded mac := by simp [new]

theorem Recorded.lookup_eq_none (h : Recorded announced w emitted) (hmac : mac ∉ w.macList) :
    announced.lookup mac = none := by
  rw [List.lookup_eq_none_iff]
  rintro ⟨mac', ip⟩ hmem
  rw [bne_iff_ne]
  rintro rfl
  exact hmac ((h.mem_iff _).mpr ⟨ip, hmem⟩)

theorem Recorded.known (h : Recorded announced w emitted) (hmac : mac ∈ w.macList) (ip : QString) :
    Recorded (announced ++ [(mac, ip)]) w emitted where
  nodup := h.nodup
  mem_iff mac' := by
    constructor
    · intro hmem
      obtain ⟨ip', hip'⟩ := (h.mem_iff mac').mp hmem
      exact ⟨ip', List.mem_append_left _ hip'⟩
    · rintro ⟨ip', hip'⟩
      rcases List.mem_append.mp hip' with hip' | hip'
      · exact (h.mem_iff mac').mpr ⟨ip', hip'⟩
      · cases List.mem_singleton.mp hip'
        exact hmac
  macIP mac' hmem := by
    obtain ⟨ip', hip'⟩ := (h.mem_iff mac').mp hmem
    have hsome : (announced.lookup mac').isSome := by
      rw [List.lookup_isSome_iff]
      exact ⟨_, hip', beq_self_eq_true _⟩
    rw [h.macIP mac' hmem, List.lookup_append, Option.or_of_isSome hsome]
  robotAdded := h.robotAdded

theorem Recorded.fresh (h : Recorded announced w emitted) (hmac : mac ∉ w.macList) (ip : QString) :
    Recorded (announced ++ [(mac, ip)]) (w.addRobot mac ip) (emitted ++ [mac]) where
  nodup := by
    rw [addRobot]
    exact List.nodup_append.mpr ⟨h.nodup, List.pairwise_singleton _ mac, by
      rintro a ha b hb rfl
      exact hmac (List.mem_singleton.mp hb ▸ ha)⟩
  mem_iff mac' := by simp [addRobot, h.mem_iff, exists_or]
  macIP mac' hmem := by
    rw [List.lookup_append, addRobot]
    by_cases heq : mac' = mac
    · subst heq
      simp [h.lookup_eq_none hmac]
    · have hold : mac' ∈ w.macList := by simpa [addRobot, heq] using hmem
      simp [heq, h.macIP mac' hold]
  robotAdded mac' := by
    rw [List.count_append, h.robotAdded, addRobot]
    by_cases heq : mac' = mac
    · simp [heq, hmac]
    · simp [heq, Ne.symm heq]

theorem Recorded.processDatagram (h : Recorded announced w emitted)
    (hstep : processDatagram qt w d = some (w', out)) :
    Recorded (announced ++ (announcement qt d).toList) w' (emitted ++ out) := by
  have htokens := mt tokens_eq_singleton_macToken.mp (fromUtf8_ne_of_processDatagram hstep)
  rw [processDatagram_eq, if_neg htokens] at hstep
  split at hstep
  · rename_i mac ip hann
    rw [hann, Option.toList_some]
    split at hstep
    · rename_i hmac
      cases hstep
      rw [List.append_nil]
      exact h.known hmac ip
    · rename_i hmac
      cases hstep
      exact h.fresh hmac ip
  · rename_i hann
    cases hstep
    rw [hann, Option.toList_none, List.append_nil, List.append_nil]
    exact h

-- ---------------------------------------------------------------------------
-- Runs
-- ---------------------------------------------------------------------------

theorem Recorded.udpProcessPendingDatagrams {pending : List (Datagram Address)}
    (h : Recorded announced w emitted)
    (hcall : udpProcessPendingDatagrams qt w pending = some (w', out)) :
    Recorded (announced ++ pending.filterMap (announcement qt)) w' (emitted ++ out) := by
  obtain ⟨⟨t, outs⟩, hrun, heq⟩ := Option.map_eq_some_iff.mp hcall
  obtain ⟨rfl, rfl⟩ := Prod.mk.inj heq
  refine Machine.run_induction (I := fun earlier w outs =>
    Recorded (announced ++ earlier.filterMap (announcement qt)) w (emitted ++ outs.flatten))
    ?_ ?_ hrun
  · simpa using h
  · intro earlier t outs d t' out hrec hstep
    have hone : [d].filterMap (announcement qt) = (announcement qt d).toList := by
      cases hann : announcement qt d <;> simp [hann]
    simpa [hone] using hrec.processDatagram hstep

theorem exists_udpProcessPendingDatagrams {pending : List (Datagram Address)}
    (h : ∀ d ∈ pending, qt.fromUtf8 d.payload ≠ macToken) (w : ConnectorWorker) :
    ∃ next, udpProcessPendingDatagrams qt w pending = some next := by
  obtain ⟨next, hrun⟩ := Machine.run_total_of
    (fun w (d : Datagram Address) (hd : qt.fromUtf8 d.payload ≠ macToken) =>
      exists_processDatagram hd w) w h
  exact ⟨_, by rw [udpProcessPendingDatagrams, hrun]; rfl⟩

/-- Announcements are handled safely exactly if no datagram's text is `mac`
alone. -/
theorem handlesSafely_iff (qt : QtText Address) (calls : List (List (Datagram Address))) :
    HandlesSafely qt calls ↔
      ∀ pending ∈ calls, ∀ d ∈ pending, qt.fromUtf8 d.payload ≠ macToken := by
  constructor
  · rintro ⟨w, robotAdded, hrun, -⟩ pending hpending d hd
    obtain ⟨t, t', out, hcall⟩ := Machine.exists_step_of_mem hrun hpending
    obtain ⟨⟨u, outs⟩, hloop, -⟩ := Option.map_eq_some_iff.mp hcall
    obtain ⟨v, v', added, hround⟩ := Machine.exists_step_of_mem hloop hd
    exact fromUtf8_ne_of_processDatagram hround
  · intro h
    obtain ⟨⟨w, robotAdded⟩, hrun⟩ := Machine.run_total_of
      (fun w (pending : List (Datagram Address))
          (hpending : ∀ d ∈ pending, qt.fromUtf8 d.payload ≠ macToken) =>
        exists_udpProcessPendingDatagrams hpending w) new h
    refine ⟨w, robotAdded, hrun, ?_⟩
    refine Machine.run_induction (I := fun calls w outs =>
      Recorded (calls.flatten.filterMap (announcement qt)) w outs.flatten) ?_ ?_ hrun
    · exact recorded_new
    · intro earlier t outs pending t' out hrec hcall
      simpa using hrec.udpProcessPendingDatagrams hcall

def asciiText : QtText QString where
  fromUtf8 payload := (payload.takeWhile (· ≠ 0)).map (BitVec.setWidth 16)
  toString := id

theorem not_handlesSafely_mac :
    ¬HandlesSafely asciiText [[⟨[0x6D, 0x61, 0x63], []⟩]] := by
  rintro ⟨w, robotAdded, hrun, -⟩
  cases hrun

end ConnectorWorker

end LARCmaCS
