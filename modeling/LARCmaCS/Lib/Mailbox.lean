import LARCmaCS.Lib.Machine
import Mathlib.Data.Finset.Dedup
import Mathlib.Data.Fintype.Defs
import Mathlib.Logic.Function.Basic

/-!
# Mailboxes

Clients make calls to a server that handles one call at a time. A client posts
the calls it has made one by one, so the posts of several clients come in any
order. `Delivered`: in whatever order the steps are taken, the calls of each
client are handled in the order in which it made them, each once. `drains`:
where the server handles every call, whatever has been made can be handled.
-/

/-- A client's outbox holds what it has made and not posted yet. -/
structure Mailbox (Client Call Server : Type*) where
  outbox : Client → List Call
  posted : List (Client × Call)
  server : Server

namespace Mailbox

variable {Client Call Server Out : Type*} [DecidableEq Client]

def new (s : Server) : Mailbox Client Call Server := ⟨fun _ => [], [], s⟩

/-- A client that still has calls to post makes no others. -/
def make (m : Mailbox Client Call Server) (c : Client) (calls : List Call) :
    Option (Mailbox Client Call Server) :=
  match m.outbox c with
  | [] => some { m with outbox := Function.update m.outbox c calls }
  | _ :: _ => none

def post (m : Mailbox Client Call Server) (c : Client) : Option (Mailbox Client Call Server) :=
  match m.outbox c with
  | [] => none
  | call :: rest =>
    some { m with outbox := Function.update m.outbox c rest, posted := m.posted ++ [(c, call)] }

def deliver (handle : Server → Call → Option (Server × List Out)) (m : Mailbox Client Call Server) :
    Option (Mailbox Client Call Server × List Out) :=
  match m.posted with
  | [] => none
  | (_, call) :: rest =>
    (handle m.server call).map fun (s, out) => ({ m with posted := rest, server := s }, out)

def callOf (c : Client) (p : Client × Call) : Option Call := if p.1 = c then some p.2 else none

/-- `made` are the calls that each client has made so far, `handled` those that
the server has handled, of which `I` holds with the outputs. -/
structure Delivered (I : List Call → Server → List Out → Prop) (made : Client → List Call)
    (handled : List (Client × Call)) (outs : List Out) (m : Mailbox Client Call Server) : Prop where
  inOrder : ∀ c, made c = (handled ++ m.posted).filterMap (callOf c) ++ m.outbox c
  served : I (handled.map Prod.snd) m.server outs

variable {I : List Call → Server → List Out → Prop} {made : Client → List Call}
  {handled : List (Client × Call)} {outs : List Out} {m m' : Mailbox Client Call Server} {c : Client}

-- ---------------------------------------------------------------------------
-- What the steps do
-- ---------------------------------------------------------------------------

omit [DecidableEq Client] in
theorem deliver_cases {handle : Server → Call → Option (Server × List Out)} {out : List Out}
    (h : m.deliver handle = some (m', out)) :
    ∃ c call rest s, m.posted = (c, call) :: rest ∧ handle m.server call = some (s, out) ∧
      m' = { m with posted := rest, server := s } := by
  unfold deliver at h
  split at h
  · cases h
  · rename_i c call rest hposted
    obtain ⟨⟨s, out'⟩, hhandle, heq⟩ := Option.map_eq_some_iff.mp h
    cases heq
    exact ⟨c, call, rest, s, hposted, hhandle, rfl⟩

theorem delivered_new {s : Server} (h : I [] s []) :
    Delivered I (fun _ => []) [] [] (new s : Mailbox Client Call Server) where
  inOrder c := by simp [new]
  served := h

theorem Delivered.make (h : Delivered I made handled outs m) {calls : List Call}
    (hstep : m.make c calls = some m') :
    Delivered I (fun d => made d ++ if d = c then calls else []) handled outs m' := by
  unfold Mailbox.make at hstep
  split at hstep
  · rename_i hempty
    cases hstep
    refine ⟨fun d => ?_, h.served⟩
    by_cases hd : d = c
    · subst hd
      simp [h.inOrder, hempty]
    · simp [h.inOrder, hd]
  · cases hstep

theorem Delivered.post (h : Delivered I made handled outs m) (hstep : m.post c = some m') :
    Delivered I made handled outs m' := by
  unfold Mailbox.post at hstep
  split at hstep
  · cases hstep
  · rename_i call rest houtbox
    cases hstep
    refine ⟨fun d => ?_, h.served⟩
    by_cases hd : d = c
    · subst hd
      simp [h.inOrder, houtbox, callOf]
    · simp [h.inOrder, hd, callOf, Ne.symm hd]

theorem Delivered.deliver {handle : Server → Call → Option (Server × List Out)}
    (h : Delivered I made handled outs m)
    (hI : ∀ calls s outs call s' out, I calls s outs → handle s call = some (s', out) →
      I (calls ++ [call]) s' (outs ++ out))
    {out : List Out} (hstep : m.deliver handle = some (m', out)) :
    ∃ p, Delivered I made (handled ++ [p]) (outs ++ out) m' := by
  obtain ⟨c, call, rest, s, hposted, hhandle, rfl⟩ := deliver_cases hstep
  refine ⟨(c, call), fun d => ?_, ?_⟩
  · simp [h.inOrder, hposted]
  · simpa using hI _ _ _ _ _ _ h.served hhandle

theorem Delivered.own (h : Delivered I made handled outs m) {s : Server}
    (hI : I (handled.map Prod.snd) s outs) : Delivered I made handled outs { m with server := s } :=
  ⟨h.inOrder, hI⟩

-- ---------------------------------------------------------------------------
-- Draining
-- ---------------------------------------------------------------------------

inductive Turn (Client : Type*)
  | post (c : Client)
  | deliver

variable {handle : Server → Call → Option (Server × List Out)}

def turn (handle : Server → Call → Option (Server × List Out)) (m : Mailbox Client Call Server) :
    Turn Client → Option (Mailbox Client Call Server × List Out)
  | .post c => (m.post c).map fun m' => (m', [])
  | .deliver => m.deliver handle

structure Drained (m : Mailbox Client Call Server) : Prop where
  outbox : ∀ c, m.outbox c = []
  posted : m.posted = []

theorem turn_deliver {call : Call} {rest : List (Client × Call)} {s : Server} {out : List Out}
    (hposted : m.posted = (c, call) :: rest) (hhandle : handle m.server call = some (s, out)) :
    m.turn handle .deliver = some ({ m with posted := rest, server := s }, out) := by
  simp [turn, deliver, hposted, hhandle]

theorem turn_post {call : Call} {rest : List Call} (houtbox : m.outbox c = call :: rest) :
    m.turn handle (.post c) =
      some ({ m with outbox := Function.update m.outbox c rest, posted := m.posted ++ [(c, call)] },
        []) := by
  simp [turn, post, houtbox]

variable {P : Server → Prop}

section Total

variable (hhandle : ∀ s call, P s → ∃ s' out, handle s call = some (s', out) ∧ P s')
include hhandle

theorem leads_posted (hserver : P m.server) :
    Machine.Leads (turn handle) m fun m' => m'.posted = [] ∧ m'.outbox = m.outbox ∧ P m'.server := by
  obtain ⟨posted, hposted⟩ : ∃ posted, m.posted = posted := ⟨_, rfl⟩
  induction posted generalizing m with
  | nil => exact .here ⟨hposted, rfl, hserver⟩
  | cons p rest ih =>
    obtain ⟨s, out, hcall, hs⟩ := hhandle m.server p.2 hserver
    exact .cons (turn_deliver hposted hcall) (ih hs rfl)

theorem leads_outbox (c : Client) (hserver : P m.server) (hposted : m.posted = []) :
    Machine.Leads (turn handle) m fun m' =>
      m'.posted = [] ∧ m'.outbox = Function.update m.outbox c [] ∧ P m'.server := by
  obtain ⟨calls, hcalls⟩ : ∃ calls, m.outbox c = calls := ⟨_, rfl⟩
  induction calls generalizing m with
  | nil => exact .here ⟨hposted, by rw [← hcalls, Function.update_eq_self], hserver⟩
  | cons call rest ih =>
    obtain ⟨s, out, hcall, hs⟩ := hhandle m.server call hserver
    have hone : m.posted ++ [(c, call)] = [(c, call)] := by rw [hposted, List.nil_append]
    refine .cons (turn_post hcalls) (.cons (turn_deliver hone hcall) ?_)
    simpa using ih (m := ⟨Function.update m.outbox c rest, [], s⟩) hs rfl (by simp)

/-- Whatever the clients have made, it can be posted and handled to the last
call. -/
theorem drains [Fintype Client] (hserver : P m.server) :
    Machine.Leads (turn handle) m fun m' => Drained m' ∧ P m'.server := by
  suffices h : ∀ clients : List Client, Machine.Leads (turn handle) m fun m' =>
      (∀ c ∈ clients, m'.outbox c = []) ∧ m'.posted = [] ∧ P m'.server by
    refine (h Finset.univ.toList).trans fun m' ⟨houtbox, hposted, hs⟩ => .here ⟨⟨?_, hposted⟩, hs⟩
    exact fun c => houtbox c (Finset.mem_toList.mpr (Finset.mem_univ c))
  intro clients
  induction clients with
  | nil => exact (leads_posted hhandle hserver).trans fun m' h => .here ⟨by simp, h.1, h.2.2⟩
  | cons c clients ih =>
    refine ih.trans fun m' ⟨houtbox, hposted, hs⟩ => ?_
    refine (leads_outbox hhandle c hs hposted).trans fun m'' ⟨hposted, heq, hs⟩ =>
      .here ⟨?_, hposted, hs⟩
    intro d hd
    rw [heq]
    by_cases hc : d = c
    · simp [hc]
    · rw [Function.update_of_ne hc]
      exact houtbox d ((List.mem_cons.mp hd).resolve_left hc)

end Total

end Mailbox
