import QEngine.RingBuffers
import QEngine.StepRuns

/-!
# The queue of the disaster recovery forwarder

Writers put payloads into a ring, one thread takes them out and sends them to the
remote site. The thread does not hold the lock while it connects; when it cannot
connect, it puts the payload back in front of the others.
-/

namespace QEngine.DrForwarder
open List RingBuffers StepRuns

abbrev Payload := List UInt8

inductive Rc
  | ok
  | inval
  | nomem
  deriving DecidableEq

inductive Drain
  | idle
  | dialing (x : Payload)
  | unreachable (x : Payload)
  | connected (x : Payload)
  deriving DecidableEq

/-- `accepted` are the payloads whose enqueue returned ok, `sent` those that were handed to the
send call. -/
structure Forwarder where
  ring : RingBuffer Payload
  drain : Drain
  accepted : List Payload
  sent : List Payload

def forwarderNew (ringCap : ℤ) : Forwarder :=
    ⟨RingBuffer.new (if ringCap < 16 then 16 else ringCap.toNat), .idle, [], []⟩

def enqueue (f : Forwarder) (payload : Payload) (copied : Bool) : Forwarder × Rc :=
  if payload = [] then (f, .inval)
  else if copied = false then (f, .nomem)
  else if f.ring.cap ≤ f.ring.size then (f, .nomem)
  else ({ f with ring := f.ring.pushBack payload, accepted := f.accepted++[payload] }, .ok)

inductive Event
  | enqueue (payload : Payload) (copied : Bool)
  | pop
  | dial (ok : Bool)
  | requeue
  | send
  deriving DecidableEq

def step (f : Forwarder) : Event → Option Forwarder
  | .enqueue payload copied => some (enqueue f payload copied).1
  | .pop =>
    match f.drain, f.ring.front with
    | .idle, some x =>
      if f.ring.size = 0 then none else some { f with ring := f.ring.popFront, drain := .dialing x }
    | _, _ => none
  | .dial ok =>
    match f.drain with
    | .dialing x => some { f with drain := if ok then .connected x else .unreachable x }
    | _ => none
  | .requeue =>
    match f.drain with
    -- The sum for the slot is one of signed 32-bit numbers.
    | .unreachable x =>
      if 2^31 ≤ f.ring.tail+f.ring.cap-1 then none
      else some { f with ring := f.ring.pushFront x, drain := .idle }
    | _ => none
  | .send =>
    match f.drain with
    | .connected x => some { f with drain := .idle, sent := f.sent++[x] }
    | _ => none

def Drain.held : Drain → List Payload
  | .idle => []
  | .dialing x => [x]
  | .unreachable x => [x]
  | .connected x => [x]

def Allowed (f : Forwarder) : Event → Prop
  | .requeue => f.ring.size < f.ring.cap
  | _ => True

instance (f : Forwarder) : ∀ e, Decidable (Allowed f e)
  | .requeue => inferInstanceAs (Decidable (_ < _))
  | .enqueue _ _ | .pop | .dial _ | .send => isTrue trivial

def Kept (cap : ℕ) (f : Forwarder) : Prop :=
  f.ring.cap = cap ∧ ∃ queued, f.ring.Holds queued ∧ f.accepted = f.sent++(f.drain.held++queued)

theorem kept_new (ringCap : ℤ) : Kept (if ringCap < 16 then 16 else ringCap.toNat)
    (forwarderNew ringCap) := by
  refine ⟨rfl, [], holds_new ?_, rfl⟩
  split_ifs <;> omega

theorem kept_enqueue {cap : ℕ} {f : Forwarder} (h : Kept cap f) (payload : Payload) (copied : Bool) :
    Kept cap (enqueue f payload copied).1 := by
  obtain ⟨hcap, queued, hring, hacc⟩ := h
  unfold enqueue
  split_ifs with hnil hcopy hfull
  · exact ⟨hcap, queued, hring, hacc⟩
  · exact ⟨hcap, queued, hring, hacc⟩
  · exact ⟨hcap, queued, hring, hacc⟩
  have hroom : queued.length < f.ring.cap := by
    rw [← hring.size]
    exact not_le.mp hfull
  refine ⟨hcap, queued++[payload], holds_pushBack hring hroom, ?_⟩
  dsimp only
  rw [hacc, append_assoc, append_assoc]

theorem kept_step {cap : ℕ} (f : Forwarder) (e : Event) (f' : Forwarder) (h : Kept cap f) (ha : Allowed f e)
    (hs : step f e = some f') : Kept cap f' := by
  cases e with
  | enqueue payload copied =>
    cases hs
    exact kept_enqueue h _ _
  | pop =>
    obtain ⟨hcap, queued, hring, hacc⟩ := h
    simp only [step] at hs
    split at hs
    · rename_i x hdrain hfront
      split_ifs at hs with hsize
      cases hs
      rw [hdrain] at hacc
      cases queued with
      | nil => exact absurd hring.size hsize
      | cons y queued =>
        have hy := holds_front hring
        obtain rfl : x = y := Option.some.inj (hfront.symm.trans hy)
        exact ⟨hcap, queued, holds_popFront hring, hacc⟩
    · cases hs
  | dial ok =>
    obtain ⟨hcap, queued, hring, hacc⟩ := h
    simp only [step] at hs
    split at hs
    · rename_i x hdrain
      cases hs
      rw [hdrain] at hacc
      refine ⟨hcap, queued, hring, ?_⟩
      cases ok <;> exact hacc
    · cases hs
  | requeue =>
    obtain ⟨hcap, queued, hring, hacc⟩ := h
    have hroom : queued.length < f.ring.cap := by
      rw [← hring.size]
      exact ha
    simp only [step] at hs
    split at hs
    · rename_i x hdrain
      split_ifs at hs
      cases hs
      rw [hdrain] at hacc
      exact ⟨hcap, x :: queued, holds_pushFront hring hroom, hacc⟩
    · cases hs
  | send =>
    obtain ⟨hcap, queued, hring, hacc⟩ := h
    simp only [step] at hs
    split at hs
    · rename_i x hdrain
      cases hs
      rw [hdrain] at hacc
      refine ⟨hcap, queued, hring, ?_⟩
      dsimp only
      rw [hacc, append_assoc]
      rfl
    · cases hs

/-- As long as no payload comes back to a full ring, what was accepted is what was sent, is held,
or is queued, in order. -/
theorem forwarder_keeps_accepted (ringCap : ℤ) (es : List Event) (f : Forwarder)
    (ha : Along step Allowed (forwarderNew ringCap) es) (hr : run step (forwarderNew ringCap) es = some f) :
    f.ring.size ≤ (if ringCap < 16 then 16 else ringCap.toNat) ∧
    ∃ queued, f.ring.Holds queued ∧ f.accepted = f.sent++(f.drain.held++queued) := by
  obtain ⟨hcap, queued, hring, hacc⟩ := run_invariant _ kept_step es _ f (kept_new _) ha hr
  refine ⟨?_, queued, hring, hacc⟩
  rw [← hcap, hring.size]
  exact hring.room

/-- A payload comes back once, the next connection is made, and both payloads are sent. -/
def bounced : List Event :=
  [.enqueue [1] true, .enqueue [2] true, .pop, .enqueue [3] true, .dial false, .requeue, .pop, .dial true,
    .send, .pop]

theorem forwarder_keeps_accepted_bounced :
    ∃ f, run step (forwarderNew 4) bounced = some f ∧ f.sent = [[1]] ∧ f.accepted = [[1], [2], [3]] ∧
      f.ring.size ≤ 16 ∧ ∃ queued, f.ring.Holds queued ∧ f.accepted = f.sent++(f.drain.held++queued) := by
  refine ⟨_, rfl, rfl, rfl, ?_⟩
  exact forwarder_keeps_accepted 4 bounced _ (by decide) rfl

/-- The ring is full, one payload is taken out, its cell is taken by the payload 17, and then it is
put back there. -/
theorem requeue_overwrites_accepted : ∃ f, run step (forwarderNew 16)
      ((List.range 16).map (fun i => .enqueue [UInt8.ofNat (i+1)] true)++
        [.pop, .enqueue [17] true, .dial false, .requeue]) = some f ∧
    [17] ∈ f.accepted ∧ f.sent = [] ∧ f.drain = .idle ∧ f.ring.cap < f.ring.size ∧
    ∀ i < f.ring.cap, f.ring.cells i ≠ some [17] := by
  exact run_reaches _ _ _ _ (by decide)

end QEngine.DrForwarder
