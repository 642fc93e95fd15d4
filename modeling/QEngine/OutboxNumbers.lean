import QEngine.ReplicatedBatches

/-!
# The outbox over its whole life

Numbers are reserved in chunks, and the file with every stream's reservation
is replaced before a number of the chunk is handed out. An open goes on above
the reservations of the file, if it can read the file: any failure to open it
counts as a file that was never written.
-/

namespace QEngine.OutboxNumbers
open List
open ReplicatedBatches (ObStream)

def obMaxStreams : ℕ := 64

structure Records (α : Type) where
  find : ℕ → Option α
  count : ℕ

structure Handed where
  stream : ℕ
  seq : ℕ
  base : ℕ
  deriving DecidableEq

structure Outbox where
  file : Option (Records ℕ)
  slots : Option (Records ObStream)
  handed : List Handed

def fresh : Outbox := ⟨none, none, []⟩

def obFlush (t : Records ObStream) : Records ℕ := ⟨fun k => (t.find k).map ObStream.reserved, t.count⟩

def outboxOpen (fault : Bool) (file : Option (Records ℕ)) : Records ObStream :=
  match file, fault with
  | some f, false => ⟨fun k => (f.find k).map fun r => ⟨r, r+1, r+1⟩, f.count⟩
  | _, _ => ⟨fun _ => none, 0⟩

def Records.set (t : Records ObStream) (stream : ℕ) (s : ObStream) : Records ObStream :=
  { t with find := fun k => if k = stream then some s else t.find k }

def obFind (t : Records ObStream) (stream : ℕ) : Option (ObStream × Records ObStream) :=
  match t.find stream with
  | some s => some (s, t)
  | none =>
    if t.count < obMaxStreams then some (⟨0, 1, 1⟩, { t.set stream ⟨0, 1, 1⟩ with count := t.count+1 }) else
      none

/-- How a flush ends; the process may die before or after the rename. -/
inductive Flush where
  | done
  | failed
  | diedBefore
  | diedAfter

def Outbox.hand (o : Outbox) (file : Option (Records ℕ)) (t : Records ObStream) (stream : ℕ)
    (s : ObStream) : Outbox :=
  ⟨file, some (t.set stream { s with next := s.next+1 }), o.handed++[⟨stream, s.next, s.base⟩]⟩

def outboxNext (chunk : ℕ) (o : Outbox) (t : Records ObStream) (stream : ℕ) (flush : Flush) : Outbox :=
  match obFind t stream with
  | none => o
  | some (s, t) =>
    if s.reserved < s.next then
      let s' := { s with reserved := s.next+chunk-1 }
      match flush with
      | .done => o.hand (some (obFlush (t.set stream s'))) t stream s'
      | .failed => { o with slots := some t }
      | .diedBefore => { o with slots := none }
      | .diedAfter => { o with file := some (obFlush (t.set stream s')), slots := none }
    else o.hand o.file t stream s

inductive Event where
  | next (stream : ℕ) (flush : Flush)
  | close
  | reopen (fault : Bool)

def step (chunk : ℕ) (o : Outbox) : Event → Outbox
  | .next stream flush =>
    match o.slots with
    | none => o
    | some t => if stream = 0 then o else outboxNext chunk o t stream flush
  | .close => { o with slots := none }
  | .reopen fault => { o with slots := some (outboxOpen fault o.file) }

/-! ### One event -/

def slotAt (t : Records ObStream) (k : ℕ) : ObStream := (t.find k).getD ⟨0, 1, 1⟩

def reservedAt (file : Option (Records ℕ)) (k : ℕ) : ℕ := (file.bind fun f => f.find k).getD 0

theorem slotAt_set (t : Records ObStream) (stream : ℕ) (s : ObStream) (k : ℕ) :
    slotAt (t.set stream s) k = if k = stream then s else slotAt t k := by
  by_cases h : k = stream <;> simp [slotAt, Records.set, h]

theorem slotAt_open (file : Option (Records ℕ)) (k : ℕ) :
    slotAt (outboxOpen false file) k = ⟨reservedAt file k, reservedAt file k+1, reservedAt file k+1⟩ := by
  cases file with
  | none => rfl
  | some f => cases h : f.find k <;> simp [slotAt, outboxOpen, reservedAt, h]

theorem reservedAt_flush (t : Records ObStream) (k : ℕ) :
    reservedAt (some (obFlush t)) k = (slotAt t k).reserved := by
  cases h : t.find k <;> simp [slotAt, obFlush, reservedAt, h]

theorem obFind_slot {t t' : Records ObStream} {stream : ℕ} {s : ObStream}
    (h : obFind t stream = some (s, t')) :
    s = slotAt t stream ∧ ∀ k, slotAt t' k = slotAt t k := by
  unfold obFind at h
  split at h
  · rename_i hf
    cases h
    exact ⟨by simp [slotAt, hf], fun _ => rfl⟩
  rename_i hf
  obtain ⟨-, he⟩ := Option.ite_some_none_eq_some.mp h
  cases he
  refine ⟨by simp [slotAt, hf], fun k => (slotAt_set t stream _ k).trans ?_⟩
  split_ifs with hk
  · simp [slotAt, hk, hf]
  · rfl

structure SlotOk (s : ObStream) (stored : ℕ) : Prop where
  base : 1 ≤ s.base ∧ s.base ≤ s.next
  next : s.next ≤ s.reserved+1
  stored : s.reserved ≤ stored

structure Inv (o : Outbox) : Prop where
  slots : ∀ t, o.slots = some t → ∀ k, SlotOk (slotAt t k) (reservedAt o.file k)
  live : ∀ t, o.slots = some t → ∀ m ∈ o.handed, m.seq < (slotAt t m.stream).next
  stored : ∀ m ∈ o.handed, m.base ≤ m.seq ∧ m.seq ≤ reservedAt o.file m.stream
  order : o.handed.Pairwise fun a b => a.stream = b.stream → a.seq < b.seq ∧ a.base ≤ b.seq

section
variable {o : Outbox} (h : Inv o)
include h

theorem closed_inv : Inv { o with slots := none } := ⟨nofun, nofun, h.stored, h.order⟩

theorem reopen_inv : Inv { o with slots := some (outboxOpen false o.file) } := by
  refine ⟨fun t ht k => ?_, fun t ht m hm => ?_, h.stored, h.order⟩ <;> cases ht <;> rw [slotAt_open]
  · exact ⟨⟨Nat.le_add_left _ _, le_rfl⟩, le_rfl, le_rfl⟩
  · exact Nat.lt_succ_of_le (h.stored m hm).2

variable {t : Records ObStream} (ht : o.slots = some t)
include ht

theorem same_slots_inv {t' : Records ObStream} (he : ∀ k, slotAt t' k = slotAt t k) :
    Inv { o with slots := some t' } := by
  refine ⟨fun u hu k => ?_, fun u hu m hm => ?_, h.stored, h.order⟩ <;> cases hu <;> rw [he]
  · exact h.slots t ht k
  · exact h.live t ht m hm

theorem covered {file : Option (Records ℕ)} (hf : ∀ k, (slotAt t k).next ≤ reservedAt file k+1) :
    ∀ m ∈ o.handed, m.base ≤ m.seq ∧ m.seq ≤ reservedAt file m.stream := fun m hm =>
  ⟨(h.stored m hm).1, by have := h.live t ht m hm; have := hf m.stream; omega⟩

theorem hand_inv {file : Option (Records ℕ)} {t' : Records ObStream} {stream : ℕ} {s : ObStream}
    (he : ∀ k, slotAt t' k = slotAt t k) (hb : s.base = (slotAt t stream).base)
    (hn : s.next = (slotAt t stream).next)
    (hr : s.next ≤ s.reserved) (hs : s.reserved ≤ reservedAt file stream)
    (hf : ∀ k, k ≠ stream → (slotAt t k).reserved ≤ reservedAt file k) : Inv (o.hand file t' stream s) := by
  have hok := h.slots t ht
  have hfile : ∀ k, (slotAt t k).next ≤ reservedAt file k+1 := fun k => by
    by_cases hk : k = stream
    · subst hk
      omega
    · exact (hok k).next.trans (Nat.succ_le_succ (hf k hk))
  have hnew : ∀ u, (o.hand file t' stream s).slots = some u →
      ∀ k, slotAt u k = if k = stream then { s with next := s.next+1 } else slotAt t k := by
    intro u hu k
    cases hu
    rw [slotAt_set, he]
  refine ⟨fun u hu k => ?_, fun u hu m hm => ?_, fun m hm => ?_, ?_⟩
  · rw [hnew u hu]
    have hbase := (hok stream).base
    split_ifs with hk
    · subst hk
      exact ⟨⟨hb ▸ hbase.1, by dsimp only; omega⟩, Nat.succ_le_succ hr, hs⟩
    · exact ⟨(hok k).base, (hok k).next, hf k hk⟩
  · rw [hnew u hu]
    obtain hm | hm := mem_append.mp hm
    · have hl := h.live t ht m hm
      split_ifs with hk
      · rw [hk] at hl
        dsimp only
        omega
      · exact hl
    · obtain rfl := mem_singleton.mp hm
      rw [if_pos rfl]
      exact Nat.lt_succ_self _
  · obtain hm | hm := mem_append.mp hm
    · exact covered h ht hfile m hm
    · obtain rfl := mem_singleton.mp hm
      exact ⟨by rw [hb, hn]; exact (hok stream).base.2, hr.trans hs⟩
  · refine pairwise_append.mpr ⟨h.order, pairwise_singleton _ _, fun a ha b hb he => ?_⟩
    obtain rfl := mem_singleton.mp hb
    have hl := h.live t ht a ha
    have := (h.stored a ha).1
    rw [show a.stream = stream from he] at hl
    dsimp only
    omega

theorem next_inv {chunk : ℕ} (hc : 0 < chunk) (stream : ℕ) (flush : Flush) :
    Inv (outboxNext chunk o t stream flush) := by
  unfold outboxNext
  split
  · exact h
  rename_i s t' hf
  obtain ⟨rfl, he⟩ := obFind_slot hf
  have hok := h.slots t ht
  split_ifs with hr
  · have hstored : ∀ k, reservedAt (some (obFlush (t'.set stream
        { slotAt t stream with reserved := (slotAt t stream).next+chunk-1 }))) k =
        if k = stream then (slotAt t stream).next+chunk-1 else (slotAt t k).reserved := fun k => by
      rw [reservedAt_flush, slotAt_set, he]
      split_ifs <;> rfl
    cases flush with
    | done =>
      refine hand_inv h ht he rfl rfl (by dsimp only; omega) (by rw [hstored, if_pos rfl]) fun k hk => ?_
      rw [hstored, if_neg hk]
    | failed => exact same_slots_inv h ht he
    | diedBefore => exact closed_inv h
    | diedAfter =>
      refine ⟨nofun, nofun, covered h ht fun k => ?_, h.order⟩
      rw [hstored]
      have := (hok k).next
      split_ifs with hk
      · subst hk
        omega
      · exact this
  · exact hand_inv h ht he rfl rfl (not_lt.mp hr) (hok stream).stored fun k _ => (hok k).stored

end

theorem step_inv {chunk : ℕ} (hc : 0 < chunk) {o : Outbox} (h : Inv o) (e : Event)
    (he : ∀ fault, e = .reopen fault → fault = false) : Inv (step chunk o e) := by
  cases e with
  | next stream flush =>
    dsimp only [step]
    split
    · exact h
    rename_i t ht
    split_ifs
    · exact h
    · exact next_inv h ht hc stream flush
  | close => exact closed_inv h
  | reopen fault =>
    obtain rfl := he fault rfl
    exact reopen_inv h

/-- Within a stream the numbers handed out are strictly increasing over crashes and restarts, and none
is below a base handed out before, if every restart can read the file. -/
theorem numbers_fresh {chunk : ℕ} (hc : 0 < chunk) (es : List Event)
    (he : ∀ fault, Event.reopen fault ∈ es → fault = false) :
    (es.foldl (step chunk) fresh).handed.Pairwise
      fun a b => a.stream = b.stream → a.seq < b.seq ∧ a.base ≤ b.seq := by
  suffices h : Inv (es.foldl (step chunk) fresh) from h.order
  induction es using reverseRecOn with
  | nil => exact ⟨nofun, nofun, nofun, .nil⟩
  | append_singleton es e ih =>
    rw [foldl_append]
    exact step_inv hc (ih fun f hf => he f (mem_append_left _ hf)) e
      fun f hf => he f (mem_append_right _ (mem_singleton.mpr hf.symm))

theorem numbers_fresh_crash :
    ([.reopen false, .next 7 .done, .next 7 .done, .next 8 .diedAfter, .reopen false,
    .next 7 .done].foldl (step 4) fresh).handed.Pairwise
      fun a b => a.stream = b.stream → a.seq < b.seq ∧ a.base ≤ b.seq :=
  numbers_fresh (by decide) _ (by simp)

theorem fault_reuses :
    ([.reopen false, .next 7 .done, .close, .reopen true, .next 7 .done].foldl (step 1024) fresh).handed =
  [⟨7, 1, 1⟩, ⟨7, 1, 1⟩] := by decide

end QEngine.OutboxNumbers
