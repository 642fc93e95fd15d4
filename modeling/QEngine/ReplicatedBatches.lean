import QEngine.StepRuns
import QEngine.DedupLedger

/-!
# Replicated batches with a dedup ledger

A sender numbers its batches and repeats each one until it is acknowledged. The
receiver looks the number up in its ledger, commits the rows with the number in the
redo record, and enters it in the ledger, as three steps.
-/

namespace QEngine.ReplicatedBatches
open List StepRuns DedupLedger

abbrev Id := ℕ × ℕ

/-- A write batch as it travels; `epoch` counts the sender's restarts and says
whether the sender still waits for the answer. -/
structure Msg where
  stream : ℕ
  seq : ℕ
  base : ℕ
  epoch : ℕ
  deriving DecidableEq

def Msg.id (m : Msg) : Id := (m.stream, m.seq)

structure ObStream where
  reserved : ℕ
  next : ℕ
  base : ℕ
  deriving DecidableEq

def outboxChunk : ℕ := 1024

def outboxNext (flushed : Bool) (s : ObStream) : Option (ℕ × ℕ × ObStream) :=
  if s.reserved < s.next then
    if flushed then some (s.next, s.base, { s with reserved := s.next+outboxChunk-1, next := s.next+1 })
    else none
  else some (s.next, s.base, { s with next := s.next+1 })

def outboxReopen (s : ObStream) : ObStream := ⟨s.reserved, s.reserved+1, s.reserved+1⟩

structure Sender where
  epoch : ℕ
  outbox : ℕ → ObStream
  sent : List Msg
  acked : List Id

inductive Phase where
  | arrived
  | admitted
  | committed
  | answered (ok : Bool)
  deriving DecidableEq

structure Handler where
  conn : ℕ
  msg : Msg
  phase : Phase
  deriving DecidableEq

/-- The batches in partitions and those in the memtable and the log; `forgotten` were published
before the last crash. -/
structure Receiver where
  up : Bool
  ledger : Ledger
  commitSeq : ℕ
  stamp : ℕ
  mem : List Id
  wal : List (ℕ × Id)
  published : List Id
  handlers : List Handler
  forgotten : List Id
  deriving DecidableEq

structure State where
  sender : Sender
  receiver : Receiver

def trailerMagic : ℕ := 0x44454455

/-- The first of the two readers of a replayed record takes the number from
behind the rows, where the trailer has its magic. -/
def misread (id : Id) : Id :=
  (trailerMagic+2^32*(id.1%2^32), id.1/2^32%2^32+2^32*(id.2%2^32))

structure Replay where
  mem : List Id
  ledger : Ledger
  deriving DecidableEq

def replayApply (lim : Limits) (stamp : ℕ) (s : Replay) (w : ℕ × Id) : Replay :=
  if w.1 ≤ stamp then s
  else if seen s.ledger w.2.1 w.2.2 then s
  else
    let l := (record lim s.ledger (misread w.2).1 (misread w.2).2).2
    ⟨s.mem++[w.2], (record lim l w.2.1 w.2.2).2⟩

def replayWal (lim : Limits) (stamp : ℕ) (wal : List (ℕ × Id)) : Replay :=
  wal.foldl (replayApply lim stamp) ⟨[], []⟩

def setPhase (conn : ℕ) (p : Phase) (hs : List Handler) : List Handler :=
  hs.map fun h => if h.conn = conn then { h with phase := p } else h

def Receiver.handler (r : Receiver) (conn : ℕ) : Option Handler :=
  r.handlers.find? fun h => h.conn = conn

def promised (lim : Limits) (l : Ledger) (m : Msg) : Ledger := (advanceBase lim l m.stream m.base).2

def Receiver.check (lim : Limits) (r : Receiver) (h : Handler) : Receiver :=
  let l := promised lim r.ledger h.msg
  { r with
      ledger := l
      handlers := setPhase h.conn
        (if seen l h.msg.stream h.msg.seq then .answered true else .admitted) r.handlers }

def Receiver.commit (r : Receiver) (h : Handler) : Receiver :=
  { r with
      commitSeq := r.commitSeq+1
      mem := r.mem++[h.msg.id]
      wal := r.wal++[(r.commitSeq+1, h.msg.id)]
      handlers := setPhase h.conn .committed r.handlers }

def Receiver.enter (lim : Limits) (r : Receiver) (h : Handler) : Receiver :=
  { r with
      ledger := (record lim r.ledger h.msg.stream h.msg.seq).2
      handlers := setPhase h.conn (.answered true) r.handlers }

def Receiver.answer (r : Receiver) (conn : ℕ) (ok : Bool) : Receiver :=
  { r with handlers := setPhase conn (.answered ok) r.handlers }

def Receiver.leave (r : Receiver) (conn : ℕ) : Receiver :=
  { r with handlers := r.handlers.filter fun h => h.conn ≠ conn }

def Receiver.publish (r : Receiver) : Receiver :=
  { r with published := r.published++r.mem, mem := [], stamp := r.commitSeq }

def Receiver.crash (r : Receiver) : Receiver :=
  { r with up := false, ledger := [], mem := [], handlers := [], forgotten := r.published }

def Receiver.reopen (lim : Limits) (r : Receiver) : Receiver :=
  let s := replayWal lim r.stamp r.wal
  { r with
      up := true
      ledger := s.ledger
      mem := s.mem
      commitSeq := (r.wal.map Prod.fst).foldl max r.stamp }

/-- How a commit ends: it may fail without a trace, after rows went to a partition, or
after their record went to the log and only its fsync failed. -/
inductive CommitEnd where
  | ok
  | failed
  | failedPublished
  | failedLogged
  deriving DecidableEq

/-- The discard that follows a failure takes rows back from the memtable only. -/
def Receiver.commitEnd (r : Receiver) (h : Handler) : CommitEnd → Receiver
  | .ok => r.commit h
  | .failed => r.answer h.conn false
  | .failedPublished => { r.answer h.conn false with published := r.published++[h.msg.id] }
  | .failedLogged => { r.answer h.conn false with
      commitSeq := r.commitSeq+1
      wal := r.wal++[(r.commitSeq+1, h.msg.id)] }

inductive Event where
  | send (stream : ℕ) (flushed : Bool)
  | senderCrash
  | deliver (conn : ℕ) (m : Msg)
  | check (conn : ℕ)
  | commit (conn : ℕ) (e : CommitEnd)
  | enter (conn : ℕ)
  | reply (conn : ℕ) (received : Bool)
  | flush
  | flushCrash
  | crash
  | reopen
  deriving DecidableEq

def State.set (s : State) (r : Receiver) : State := { s with receiver := r }

def atPhase (s : State) (conn : ℕ) (p : Phase) (f : Handler → Receiver) : Option State :=
  match s.receiver.handler conn with
  | some h => if h.phase = p then some (s.set (f h)) else none
  | none => none

def step (lim : Limits) (s : State) : Event → Option State
  | .send stream flushed =>
    (outboxNext flushed (s.sender.outbox stream)).map fun (seq, base, ob) =>
      { s with sender := { s.sender with
          outbox := fun k => if k = stream then ob else s.sender.outbox k
          sent := s.sender.sent++[⟨stream, seq, base, s.sender.epoch⟩] } }
  | .senderCrash =>
    some { s with sender := { s.sender with
      epoch := s.sender.epoch+1
      outbox := fun k => outboxReopen (s.sender.outbox k) } }
  | .deliver conn m =>
    if s.receiver.up ∧ m ∈ s.sender.sent ∧ s.receiver.handler conn = none then
      some (s.set { s.receiver with handlers := s.receiver.handlers++[⟨conn, m, .arrived⟩] })
    else none
  | .check conn => atPhase s conn .arrived (s.receiver.check lim)
  | .commit conn e => atPhase s conn .admitted fun h => s.receiver.commitEnd h e
  | .enter conn => atPhase s conn .committed (s.receiver.enter lim)
  | .reply conn received =>
    match s.receiver.handler conn with
    | some ⟨_, m, .answered ok⟩ =>
      let s' := s.set (s.receiver.leave conn)
      if ok ∧ received ∧ m.epoch = s.sender.epoch then
        some { s' with sender := { s'.sender with acked := s'.sender.acked++[m.id] } }
      else some s'
    | _ => none
  | .flush => if s.receiver.up then some (s.set { s.receiver.publish with wal := [] }) else none
  | .flushCrash => if s.receiver.up then some (s.set s.receiver.publish.crash) else none
  | .crash => if s.receiver.up then some (s.set s.receiver.crash) else none
  | .reopen => if s.receiver.up then none else some (s.set (s.receiver.reopen lim))

def started : State :=
  ⟨⟨0, fun _ => ⟨0, 1, 1⟩, [], []⟩, ⟨true, [], 0, 0, [], [], [], [], []⟩⟩

def uncovered (stamp : ℕ) (wal : List (ℕ × Id)) : List Id :=
  (wal.filter fun w => stamp < w.1).map Prod.snd

def Receiver.stored (r : Receiver) : List Id :=
  r.published++(if r.up then r.mem else uncovered r.stamp r.wal)

def Phase.busy : Phase → Bool
  | .admitted => true
  | .committed => true
  | _ => false

def Allowed (lim : Limits) (s : State) : Event → Prop
  | .send stream _ => stream%2^32 ≠ trailerMagic
  | .check conn => ∀ h ∈ s.receiver.handler conn,
    seen (promised lim s.receiver.ledger h.msg) h.msg.stream h.msg.seq = false →
      h.msg.id ∉ s.receiver.forgotten ∧
      ∀ k ∈ s.receiver.handlers, k.phase.busy = true → k.msg.id ≠ h.msg.id
  | .enter conn => ∀ h ∈ s.receiver.handler conn,
    seen (record lim s.receiver.ledger h.msg.stream h.msg.seq).2 h.msg.stream h.msg.seq = true
  | .commit _ e => e ≠ .failedPublished ∧ e ≠ .failedLogged
  | .reopen => ∀ id ∈ (s.receiver.reopen lim).mem, seen (s.receiver.reopen lim).ledger id.1 id.2 = true
  | _ => True

/-- A batch is at most once in the table, and there if it is acknowledged. -/
def ExactlyOnce (s : State) : Prop :=
  ∀ id, s.receiver.stored.count id ≤ 1 ∧ (id ∈ s.sender.acked → s.receiver.stored.count id = 1)

def CallOk (epoch : ℕ) (stored : List Id) (h : Handler) : Prop :=
  match h.phase with
  | .arrived => True
  | .admitted => h.msg.id ∉ stored
  | .committed => h.msg.id ∈ stored
  | .answered ok => ok = true → h.msg.epoch = epoch → h.msg.id ∈ stored

/-- A number is handed out once, and every batch carries a promise that it
keeps itself. -/
structure Sender.Ok (s : Sender) : Prop where
  ids : (s.sent.map Msg.id).Nodup
  issued : ∀ m ∈ s.sent, m.seq < (s.outbox m.stream).next
  box : ∀ k, 1 ≤ (s.outbox k).base ∧ (s.outbox k).base ≤ (s.outbox k).next ∧
    (s.outbox k).next ≤ (s.outbox k).reserved+1
  stream : ∀ m ∈ s.sent, m.stream%2^32 ≠ trailerMagic
  base : ∀ m ∈ s.sent, 1 ≤ m.base ∧ m.base ≤ m.seq ∧ m.base ≤ (s.outbox m.stream).base
  epoch : ∀ m ∈ s.sent, m.epoch ≤ s.epoch ∧ (m.epoch = s.epoch → (s.outbox m.stream).base = m.base)

structure Calls (snd : Sender) (stored : List Id) (hs : List Handler) : Prop where
  conns : (hs.map Handler.conn).Nodup
  sent : ∀ h ∈ hs, h.msg ∈ snd.sent
  phases : ∀ h ∈ hs, CallOk snd.epoch stored h
  alone : ∀ h ∈ hs, ∀ k ∈ hs, h.phase.busy = true → k.phase.busy = true →
    h.msg.id = k.msg.id → h.conn = k.conn

def Sound (snd : Sender) (stored : List Id) (l : Ledger) : Prop :=
  ∀ st q, Seen l st q → (st, q) ∈ stored ∨ q < (snd.outbox st).base ∨ st%2^32 = trailerMagic

def Known (stored forgotten : List Id) (l : Ledger) (hs : List Handler) : Prop :=
  ∀ id ∈ stored, Seen l id.1 id.2 ∨ (∃ h ∈ hs, h.phase = .committed ∧ h.msg.id = id) ∨
    id ∈ forgotten

structure Table (r : Receiver) : Prop where
  nodup : r.stored.Nodup
  real : ∀ id ∈ r.stored, id.1%2^32 ≠ trailerMagic ∧ id.2 ≠ 0
  live : r.up = true → r.mem = uncovered r.stamp r.wal
  bounds : r.up = true → r.stamp ≤ r.commitSeq ∧ ∀ w ∈ r.wal, w.1 ≤ r.commitSeq
  down : r.up = false → r.handlers = [] ∧ r.ledger = [] ∧ r.forgotten = r.published

structure Inv (s : State) : Prop where
  sender : s.sender.Ok
  table : Table s.receiver
  calls : Calls s.sender s.receiver.stored s.receiver.handlers
  sound : Sound s.sender s.receiver.stored s.receiver.ledger
  known : s.receiver.up = true →
    Known s.receiver.stored s.receiver.forgotten s.receiver.ledger s.receiver.handlers
  acked : ∀ id ∈ s.sender.acked, id ∈ s.receiver.stored

variable {h : Handler}

variable {conn : ℕ} {flushed : Bool} {l : Ledger} {lim : Limits} {r : Receiver}

theorem handler_some (hf : r.handler conn = some h) : h ∈ r.handlers ∧ h.conn = conn :=
  ⟨mem_of_find?_eq_some hf, by simpa using find?_some hf⟩

theorem setPhase_conns (conn : ℕ) (p : Phase) (hs : List Handler) :
    (setPhase conn p hs).map Handler.conn = hs.map Handler.conn := by
  rw [setPhase, map_map]
  refine map_congr_left fun h _ => ?_
  simp only [Function.comp_apply]
  split_ifs <;> rfl

variable {hs : List Handler}

theorem mem_setPhase (hu : (hs.map Handler.conn).Nodup) (hm : h ∈ hs) (p : Phase) (k : Handler) :
    k ∈ setPhase h.conn p hs ↔ k = { h with phase := p } ∨ (k ∈ hs ∧ k.conn ≠ h.conn) := by
  rw [setPhase, mem_map]
  constructor
  · rintro ⟨j, hj, rfl⟩
    split_ifs with hc
    · rw [inj_on_of_nodup_map hu hj hm hc]
      exact .inl rfl
    · exact .inr ⟨hj, hc⟩
  · rintro (rfl | ⟨hk, hc⟩)
    · exact ⟨h, hm, if_pos rfl⟩
    · exact ⟨k, hk, if_neg hc⟩

variable {p : Phase} {snd : Sender}

/-- A call moves on while the table keeps its batches or gains some: the
others must not wait to store what was gained. -/
theorem calls_setPhase {stored stored' : List Id}
    (hc : Calls snd stored hs) (hm : h ∈ hs) (hsub : ∀ id ∈ stored, id ∈ stored')
    (hgain : ∀ id ∈ stored', id ∈ stored ∨ (id = h.msg.id ∧ h.phase.busy = true))
    (hp : CallOk snd.epoch stored' { h with phase := p })
    (hbusy : p.busy = true → ∀ k ∈ hs, k.phase.busy = true → k.msg.id = h.msg.id → k.conn = h.conn) :
    Calls snd stored' (setPhase h.conn p hs) where
  conns := by
    rw [setPhase_conns]
    exact hc.conns
  sent := by
    intro k hk
    rcases (mem_setPhase hc.conns hm p k).mp hk with rfl | ⟨hk, -⟩
    · exact hc.sent h hm
    · exact hc.sent k hk
  phases := by
    intro k hk
    rcases (mem_setPhase hc.conns hm p k).mp hk with rfl | ⟨hk, hne⟩
    · exact hp
    have hok := hc.phases k hk
    rw [CallOk] at hok ⊢
    cases hph : k.phase with
    | arrived => trivial
    | admitted =>
      rw [hph] at hok
      intro hin
      rcases hgain _ hin with hin | ⟨he, hb⟩
      · exact hok hin
      · exact hne (hc.alone k hk h hm (by rw [hph]; rfl) hb he)
    | committed =>
      rw [hph] at hok
      exact hsub _ hok
    | answered ok =>
      rw [hph] at hok
      exact fun h1 h2 => hsub _ (hok h1 h2)
  alone := by
    intro k hk j hj hbk hbj he
    rcases (mem_setPhase hc.conns hm p k).mp hk with rfl | ⟨hk, hck⟩
    · rcases (mem_setPhase hc.conns hm p j).mp hj with rfl | ⟨hj, hcj⟩
      · rfl
      · exact (hbusy hbk j hj hbj he.symm).symm
    rcases (mem_setPhase hc.conns hm p j).mp hj with rfl | ⟨hj, hcj⟩
    · exact hbusy hbj k hk hbk he
    · exact hc.alone k hk j hj hbk hbj he

theorem known_setPhase {stored stored' forgotten : List Id} {l' : Ledger} (hu : (hs.map Handler.conn).Nodup)
    (hm : h ∈ hs) (hk : Known stored forgotten l hs) (hled : ∀ st q, Seen l st q → Seen l' st q)
    (hold : ∀ id ∈ stored', id ∈ stored ∨ (p = .committed ∧ id = h.msg.id))
    (hph : h.phase = .committed → Seen l' h.msg.stream h.msg.seq) :
    Known stored' forgotten l' (setPhase h.conn p hs) := by
  intro id hid
  rcases hold id hid with hid | ⟨rfl, rfl⟩
  · rcases hk id hid with hs | ⟨k, hkm, hkp, rfl⟩ | hf
    · exact .inl (hled _ _ hs)
    · by_cases hc : k.conn = h.conn
      · rw [inj_on_of_nodup_map hu hkm hm hc] at hkp ⊢
        exact .inl (hph hkp)
      · exact .inr (.inl ⟨k, (mem_setPhase hu hm p k).mpr (.inr ⟨hkm, hc⟩), hkp, rfl⟩)
    · exact .inr (.inr hf)
  · exact .inr (.inl ⟨_, (mem_setPhase hu hm _ _).mpr (.inl rfl), rfl, rfl⟩)

variable {s : State}

theorem atPhase_some {s' : State} {f : Handler → Receiver}
    (h : atPhase s conn p f = some s') : ∃ k, s.receiver.handler conn = some k ∧
      k ∈ s.receiver.handlers ∧ k.conn = conn ∧ k.phase = p ∧ s' = s.set (f k) := by
  unfold atPhase at h
  split at h
  · rename_i k hk
    obtain ⟨hp, he⟩ := Option.ite_some_none_eq_some.mp h
    exact ⟨k, hk, (handler_some hk).1, (handler_some hk).2, hp, he.symm⟩
  · cases h

theorem promised_sound {stored : List Id} (lim : Limits) {m : Msg}
    (hs : Sound snd stored l) (hb : m.base ≤ (snd.outbox m.stream).base) :
    Sound snd stored (promised lim l m) := by
  intro st q h
  rcases advanceBase_seen lim h with h | ⟨rfl, hq⟩
  · exact hs st q h
  · exact .inr (.inl (hq.trans_le hb))

variable (hi : Inv s)

include hi

theorem handlers_up (hm : h ∈ s.receiver.handlers) : s.receiver.up = true := by
  cases hup : s.receiver.up with
  | true => rfl
  | false =>
    rw [(hi.table.down hup).1] at hm
    cases hm

theorem move_inv (hm : h ∈ s.receiver.handlers)
    (hs : Sound s.sender s.receiver.stored l) (hled : ∀ st q, Seen s.receiver.ledger st q → Seen l st q)
    (hp : CallOk s.sender.epoch s.receiver.stored { h with phase := p })
    (hbusy : p.busy = true → ∀ k ∈ s.receiver.handlers, k.phase.busy = true →
      k.msg.id = h.msg.id → k.conn = h.conn)
    (hph : h.phase = .committed → Seen l h.msg.stream h.msg.seq) :
    Inv (s.set { s.receiver with ledger := l, handlers := setPhase h.conn p s.receiver.handlers }) where
  sender := hi.sender
  table :=
    { nodup := hi.table.nodup
      real := hi.table.real
      live := hi.table.live
      bounds := hi.table.bounds
      down := fun hd => absurd (handlers_up hi hm) (by rw [show s.receiver.up = false from hd]; decide) }
  calls := calls_setPhase hi.calls hm (fun _ h => h) (fun _ h => .inl h) hp hbusy
  sound := hs
  known := fun hup => known_setPhase hi.calls.conns hm (hi.known hup) hled (fun _ h => .inl h) hph
  acked := hi.acked

theorem check_inv (hf : s.receiver.handler h.conn = some h) (hp : h.phase = .arrived)
    (ha : Allowed lim s (.check h.conn)) : Inv (s.set (s.receiver.check lim h)) := by
  have hm := (handler_some hf).1
  have hsent := hi.calls.sent h hm
  obtain ⟨hb1, hb2, hb3⟩ := hi.sender.base _ hsent
  have hsound := promised_sound lim hi.sound hb3
  have hmono : ∀ st q, Seen s.receiver.ledger st q → Seen (promised lim s.receiver.ledger h.msg) st q :=
    fun st q hq => seen_advanceBase lim hq
  have hnc : h.phase = .committed → Seen (promised lim s.receiver.ledger h.msg) h.msg.stream h.msg.seq :=
    fun hc => by rw [hp] at hc; cases hc
  unfold Receiver.check
  dsimp only
  cases hseen : seen (promised lim s.receiver.ledger h.msg) h.msg.stream h.msg.seq with
  | true =>
    refine move_inv hi hm hsound hmono (fun _ he => ?_) (fun hb => by cases hb) hnc
    rcases hsound _ _ ((seen_iff).mp hseen) with hin | hlt | hmag
    · exact hin
    · have hbase := (hi.sender.epoch _ hsent).2 he
      omega
    · exact absurd hmag (hi.sender.stream _ hsent)
  | false =>
    obtain ⟨hforg, hother⟩ := ha h hf hseen
    refine move_inv hi hm hsound hmono ?_ (fun _ k hk hb he => absurd he (hother k hk hb)) hnc
    intro hin
    rcases hi.known (handlers_up hi hm) _ hin with hs | ⟨k, hk, hkp, he⟩ | hfg
    · have hs' := (seen_iff).mpr (hmono _ _ hs)
      rw [show seen (promised lim s.receiver.ledger h.msg) h.msg.id.1 h.msg.id.2 = false from hseen] at hs'
      cases hs'
    · exact hother k hk (by rw [hkp]; rfl) he
    · exact hforg hfg

theorem enter_inv (hf : s.receiver.handler h.conn = some h) (hp : h.phase = .committed)
    (ha : Allowed lim s (.enter h.conn)) : Inv (s.set (s.receiver.enter lim h)) := by
  have hm := (handler_some hf).1
  have hin : h.msg.id ∈ s.receiver.stored := by
    have := hi.calls.phases h hm
    rwa [CallOk, hp] at this
  refine move_inv hi hm ?_ (fun st q hq => seen_record lim hq) (fun _ _ => hin)
    (fun hb => by cases hb) (fun _ => (seen_iff).mp (ha h hf))
  intro st q hq
  rcases record_adds hq with hq | ⟨rfl, rfl⟩
  · exact hi.sound st q hq
  · exact .inl hin

theorem refuse_inv (hm : h ∈ s.receiver.handlers)
    (hp : h.phase = .admitted) : Inv (s.set (s.receiver.answer h.conn false)) :=
  move_inv hi hm hi.sound (fun _ _ hq => hq) (fun hb => by cases hb)
    (fun hb => by cases hb) (fun hc => by rw [hp] at hc; cases hc)

omit hi in
theorem uncovered_append (stamp : ℕ) (ws vs : List (ℕ × Id)) :
    uncovered stamp (ws++vs) = uncovered stamp ws++uncovered stamp vs := by
  simp [uncovered]

omit hi in
theorem stored_commit (hup : r.up = true) (h : Handler) :
    (r.commit h).stored = r.stored++[h.msg.id] := by
  simp [Receiver.stored, Receiver.commit, hup]

theorem commit_inv (hm : h ∈ s.receiver.handlers)
    (hp : h.phase = .admitted) : Inv (s.set (s.receiver.commit h)) := by
  have hup := handlers_up hi hm
  have hst := stored_commit hup h
  have hnot : h.msg.id ∉ s.receiver.stored := by
    have := hi.calls.phases h hm
    rwa [CallOk, hp] at this
  have hsub : ∀ id ∈ s.receiver.stored, id ∈ (s.receiver.commit h).stored := fun id hid => by
    rw [hst]
    exact mem_append_left _ hid
  have hnew : ∀ id ∈ (s.receiver.commit h).stored, id ∈ s.receiver.stored ∨ id = h.msg.id := by
    intro id hid
    rw [hst] at hid
    exact (mem_append.mp hid).imp (fun h => h) mem_singleton.mp
  have hin : h.msg.id ∈ (s.receiver.commit h).stored := by
    rw [hst]
    exact mem_append_right _ (mem_singleton.mpr rfl)
  have hsent := hi.calls.sent h hm
  obtain ⟨hb1, hb2, hb3⟩ := hi.sender.base _ hsent
  obtain ⟨hstamp, hwal⟩ := hi.table.bounds hup
  constructor
  · exact hi.sender
  · constructor
    · show ((s.receiver.commit h).stored).Nodup
      rw [hst]
      exact nodup_append.mpr ⟨hi.table.nodup, nodup_singleton _, fun a ha b hb hab =>
        hnot (mem_singleton.mp hb ▸ hab ▸ ha)⟩
    · intro id hid
      rcases hnew id hid with hid | rfl
      · exact hi.table.real id hid
      · exact ⟨hi.sender.stream _ hsent, by show h.msg.seq ≠ 0; omega⟩
    · intro _
      show s.receiver.mem++[h.msg.id] =
        uncovered s.receiver.stamp (s.receiver.wal++[(s.receiver.commitSeq+1, h.msg.id)])
      rw [uncovered_append, hi.table.live hup]
      simp [uncovered, Nat.lt_succ_of_le hstamp]
    · intro _
      refine ⟨Nat.le_succ_of_le hstamp, fun w hw => ?_⟩
      rcases mem_append.mp hw with hw | hw
      · exact Nat.le_succ_of_le (hwal w hw)
      · rw [mem_singleton.mp hw]
        exact le_refl _
    · intro hd
      rw [show s.receiver.up = false from hd] at hup
      cases hup
  · exact calls_setPhase hi.calls hm hsub
      (fun id hid => (hnew id hid).imp (fun h => h) fun he => ⟨he, by rw [hp]; rfl⟩) hin
      (fun _ k hk hb he => hi.calls.alone k hk h hm hb (by rw [hp]; rfl) he)
  · intro st q hq
    exact (hi.sound st q hq).imp (hsub _) fun h => h
  · exact fun _ => known_setPhase hi.calls.conns hm (hi.known hup) (fun _ _ hq => hq)
      (fun id hid => (hnew id hid).imp (fun h => h) fun he => ⟨rfl, he⟩)
      (fun hc => by rw [hp] at hc; cases hc)
  · exact fun id hid => hsub id (hi.acked id hid)

theorem deliver_inv (hup : s.receiver.up = true) {m : Msg}
    (hm : m ∈ s.sender.sent) (hfree : s.receiver.handler conn = none) :
    Inv (s.set { s.receiver with handlers := s.receiver.handlers++[⟨conn, m, .arrived⟩] }) := by
  have hnew : ∀ k ∈ s.receiver.handlers++[(⟨conn, m, .arrived⟩ : Handler)],
      k ∈ s.receiver.handlers ∨ k = ⟨conn, m, .arrived⟩ := fun k hk =>
    (mem_append.mp hk).imp (fun h => h) mem_singleton.mp
  have hconn : ∀ k ∈ s.receiver.handlers, k.conn ≠ conn := fun k hk he =>
    absurd (decide_eq_true he) (find?_eq_none.mp hfree k hk)
  constructor
  · exact hi.sender
  · refine ⟨hi.table.nodup, hi.table.real, hi.table.live, hi.table.bounds, fun hd => ?_⟩
    rw [show s.receiver.up = false from hd] at hup
    cases hup
  · constructor
    · show ((s.receiver.handlers++[(⟨conn, m, .arrived⟩ : Handler)]).map Handler.conn).Nodup
      rw [map_append]
      refine nodup_append.mpr ⟨hi.calls.conns, nodup_singleton _, fun a ha b hb hab => ?_⟩
      obtain ⟨k, hk, rfl⟩ := mem_map.mp ha
      exact hconn k hk (hab.trans (mem_singleton.mp hb))
    · intro k hk
      rcases hnew k hk with hk | rfl
      · exact hi.calls.sent k hk
      · exact hm
    · intro k hk
      rcases hnew k hk with hk | rfl
      · exact hi.calls.phases k hk
      · trivial
    · intro h hh k hk hbh hbk he
      rcases hnew h hh with hh | rfl
      · rcases hnew k hk with hk | rfl
        · exact hi.calls.alone h hh k hk hbh hbk he
        · cases hbk
      · cases hbh
  · exact hi.sound
  · intro _ id hid
    rcases hi.known hup id hid with hs | ⟨k, hk, hkp⟩ | hf
    · exact .inl hs
    · exact .inr (.inl ⟨k, mem_append_left _ hk, hkp⟩)
    · exact .inr (.inr hf)
  · exact hi.acked

theorem leave_inv (hm : h ∈ s.receiver.handlers) {ok : Bool}
    (hp : h.phase = .answered ok) : Inv (s.set (s.receiver.leave h.conn)) := by
  have hup := handlers_up hi hm
  have hsub : ∀ k ∈ (s.receiver.leave h.conn).handlers, k ∈ s.receiver.handlers := fun k hk =>
    mem_of_mem_filter hk
  constructor
  · exact hi.sender
  · refine ⟨hi.table.nodup, hi.table.real, hi.table.live, hi.table.bounds, fun hd => ?_⟩
    rw [show s.receiver.up = false from hd] at hup
    cases hup
  · exact ⟨hi.calls.conns.sublist (filter_sublist.map _), fun k hk => hi.calls.sent k (hsub k hk),
      fun k hk => hi.calls.phases k (hsub k hk),
      fun j hj k hk => hi.calls.alone j (hsub j hj) k (hsub k hk)⟩
  · exact hi.sound
  · intro _ id hid
    rcases hi.known hup id hid with hs | ⟨k, hk, hkp, he⟩ | hf
    · exact .inl hs
    · have hc : k.conn ≠ h.conn := fun hc => by
        rw [inj_on_of_nodup_map hi.calls.conns hk hm hc, hp] at hkp
        cases hkp
      exact .inr (.inl ⟨k, mem_filter.mpr ⟨hk, by simpa using hc⟩, hkp, he⟩)
    · exact .inr (.inr hf)
  · exact hi.acked

theorem acked_inv {id : Id} (hid : id ∈ s.receiver.stored) :
    Inv { s with sender := { s.sender with acked := s.sender.acked++[id] } } where
  sender := ⟨hi.sender.ids, hi.sender.issued, hi.sender.box, hi.sender.stream, hi.sender.base,
    hi.sender.epoch⟩
  table := hi.table
  calls := ⟨hi.calls.conns, hi.calls.sent, hi.calls.phases, hi.calls.alone⟩
  sound := hi.sound
  known := hi.known
  acked := by
    intro k hk
    rcases mem_append.mp hk with hk | hk
    · exact hi.acked k hk
    · rw [mem_singleton.mp hk]
      exact hid

omit hi in
theorem uncovered_nil {stamp : ℕ} {wal : List (ℕ × Id)} (h : ∀ w ∈ wal, w.1 ≤ stamp) :
    uncovered stamp wal = [] := by
  rw [uncovered, filter_eq_nil_iff.mpr (by simpa using fun a b c hm => h (a, b, c) hm)]
  rfl

theorem flush_inv (hup : s.receiver.up = true) : Inv (s.set { s.receiver.publish with wal := [] }) := by
  have hst : ({ s.receiver.publish with wal := [] } : Receiver).stored = s.receiver.stored := by
    simp [Receiver.stored, Receiver.publish, hup]
  constructor
  · exact hi.sender
  · refine ⟨hst ▸ hi.table.nodup, hst ▸ hi.table.real, fun _ => rfl, fun _ => ⟨le_refl _, fun w hw => ?_⟩,
      fun hd => ?_⟩
    · cases hw
    · rw [show s.receiver.up = false from hd] at hup
      cases hup
  · exact hst ▸ hi.calls
  · exact hst ▸ hi.sound
  · exact fun _ => hst ▸ hi.known hup
  · exact hst ▸ hi.acked

theorem crash_inv (hst : r.crash.stored = s.receiver.stored) :
    Inv (s.set r.crash) where
  sender := hi.sender
  table := ⟨hst ▸ hi.table.nodup, hst ▸ hi.table.real, fun hd => (by cases hd), fun hd => (by cases hd),
    fun _ => ⟨rfl, rfl, rfl⟩⟩
  calls := ⟨nodup_nil, fun _ h => (by cases h), fun _ h => (by cases h), fun _ h => (by cases h)⟩
  sound := fun st q h => absurd h (seen_nil st q)
  known := fun hd => by cases hd
  acked := hst ▸ hi.acked

theorem stored_crash (hup : s.receiver.up = true) : s.receiver.crash.stored = s.receiver.stored := by
  simp [Receiver.stored, Receiver.crash, hup, hi.table.live hup]

theorem stored_publish_crash (hup : s.receiver.up = true) :
    s.receiver.publish.crash.stored = s.receiver.stored := by
  have hu := uncovered_nil (hi.table.bounds hup).2
  simp [Receiver.stored, Receiver.publish, Receiver.crash, hup, hu]

omit hi in
/-- A replay takes every record it has to, and sees nothing but these and misreads. -/
theorem replay_spec (lim : Limits) (stamp : ℕ) (ws : List (ℕ × Id)) (s : Replay)
    (hnd : (s.mem++uncovered stamp ws).Nodup) (hreal : ∀ id ∈ uncovered stamp ws, id.1%2^32 ≠ trailerMagic)
    (hs : ∀ st q, Seen s.ledger st q → (st, q) ∈ s.mem ∨ st%2^32 = trailerMagic) :
    (ws.foldl (replayApply lim stamp) s).mem = s.mem++uncovered stamp ws ∧
    ∀ st q, Seen (ws.foldl (replayApply lim stamp) s).ledger st q →
      (st, q) ∈ (ws.foldl (replayApply lim stamp) s).mem ∨ st%2^32 = trailerMagic := by
  induction ws generalizing s with
  | nil => exact ⟨by simp [uncovered], hs⟩
  | cons w ws ih =>
    rw [foldl_cons, replayApply]
    by_cases hw : w.1 ≤ stamp
    · have hu : uncovered stamp (w::ws) = uncovered stamp ws := by
        simp [uncovered, Nat.not_lt.mpr hw]
      rw [hu] at hnd hreal ⊢
      rw [if_pos hw]
      exact ih s hnd hreal hs
    have hu : uncovered stamp (w::ws) = w.2::uncovered stamp ws := by
      simp [uncovered, Nat.not_le.mp hw]
    rw [hu] at hnd hreal
    have hns : seen s.ledger w.2.1 w.2.2 = false := by
      rw [Bool.eq_false_iff, ne_eq, seen_iff]
      intro h
      rcases hs _ _ h with h | h
      · exact (nodup_append.mp hnd).2.2 _ h _ mem_cons_self rfl
      · exact hreal _ mem_cons_self h
    rw [if_neg hw, hns, if_neg (by decide), hu]
    have := ih ⟨s.mem++[w.2], (record lim (record lim s.ledger (misread w.2).1 (misread w.2).2).2
      w.2.1 w.2.2).2⟩ (by simpa using hnd) (fun id hid => hreal id (mem_cons_of_mem _ hid)) ?_
    · simpa using this
    intro st q h
    rcases record_adds h with h | ⟨rfl, rfl⟩
    · rcases record_adds h with h | ⟨rfl, rfl⟩
      · exact (hs st q h).imp (fun h => mem_append_left _ h) fun h => h
      · exact .inr (by simp [misread, trailerMagic])
    · exact .inl (mem_append_right _ (mem_singleton.mpr rfl))

omit hi in
theorem le_foldl_max (ns : List ℕ) (a : ℕ) : a ≤ ns.foldl max a ∧ ∀ n ∈ ns, n ≤ ns.foldl max a := by
  induction ns generalizing a with
  | nil => exact ⟨le_refl a, fun _ h => by cases h⟩
  | cons k ks ih =>
    obtain ⟨h1, h2⟩ := ih (max a k)
    refine ⟨(le_max_left a k).trans h1, fun n hn => ?_⟩
    rcases mem_cons.mp hn with rfl | hn
    · exact (le_max_right a n).trans h1
    · exact h2 n hn

theorem reopen_inv (hdown : s.receiver.up = false)
    (ha : Allowed lim s .reopen) : Inv (s.set (s.receiver.reopen lim)) := by
  obtain ⟨hhs, -, hforg⟩ := hi.table.down hdown
  have hstored : s.receiver.stored =
      s.receiver.published++uncovered s.receiver.stamp s.receiver.wal := by
    simp [Receiver.stored, hdown]
  have hnd := hi.table.nodup
  have hreal := hi.table.real
  rw [hstored] at hnd hreal
  obtain ⟨hmem, hseen⟩ := replay_spec lim _ _ ⟨[], []⟩
    (by simpa using (nodup_append.mp hnd).2.1)
    (fun id hid => (hreal id (mem_append_right _ hid)).1)
    (fun st q h => absurd h (seen_nil st q))
  rw [nil_append] at hmem
  have hm : (s.receiver.reopen lim).mem = uncovered s.receiver.stamp s.receiver.wal := hmem
  have hst : (s.receiver.reopen lim).stored = s.receiver.stored := by
    rw [hstored, ← hm]
    rfl
  obtain ⟨hmax, hle⟩ := le_foldl_max _ _
  constructor
  · exact hi.sender
  · refine ⟨hst ▸ hi.table.nodup, hst ▸ hi.table.real, fun _ => hm, fun _ => ⟨hmax, fun w hw => ?_⟩,
      fun hd => by cases hd⟩
    exact hle _ (mem_map_of_mem hw)
  · rw [show (s.set (s.receiver.reopen lim)).receiver.stored = s.receiver.stored from hst]
    exact hi.calls
  · intro st q h
    rcases hseen st q h with h | h
    · refine .inl ?_
      show (st, q) ∈ (s.receiver.reopen lim).stored
      rw [hst, hstored, ← hm]
      exact mem_append_right _ h
    · exact .inr (.inr h)
  · intro _ id hid
    rw [show (s.set (s.receiver.reopen lim)).receiver.stored = s.receiver.stored from hst,
      hstored] at hid
    rcases mem_append.mp hid with hid | hid
    · refine .inr (.inr ?_)
      show id ∈ s.receiver.forgotten
      rw [hforg]
      exact hid
    · exact .inl ((seen_iff).mp (ha id (hm ▸ hid)))
  · rw [show (s.set (s.receiver.reopen lim)).receiver.stored = s.receiver.stored from hst]
    exact hi.acked

omit hi in
theorem outboxNext_spec {s t : ObStream} {seq base : ℕ}
    (h : outboxNext flushed s = some (seq, base, t)) (hs : s.next ≤ s.reserved+1) :
    seq = s.next ∧ base = s.base ∧ t.base = s.base ∧ t.next = s.next+1 ∧ t.next ≤ t.reserved+1 := by
  unfold outboxNext outboxChunk at h
  split_ifs at h with hr hf
  all_goals
    cases h
    exact ⟨rfl, rfl, rfl, rfl, by dsimp only; omega⟩

theorem send_inv {stream seq base : ℕ} {ob : ObStream}
    (h : outboxNext flushed (s.sender.outbox stream) = some (seq, base, ob))
    (hs : stream%2^32 ≠ trailerMagic) :
    Inv { s with sender := { s.sender with
      outbox := fun k => if k = stream then ob else s.sender.outbox k
      sent := s.sender.sent++[⟨stream, seq, base, s.sender.epoch⟩] } } := by
  obtain ⟨hb1, hb2, hb3⟩ := hi.sender.box stream
  obtain ⟨rfl, rfl, hob, hnext, hres⟩ := outboxNext_spec h hb3
  have hbase : ∀ k, (if k = stream then ob else s.sender.outbox k).base = (s.sender.outbox k).base := by
    intro k
    split_ifs with hk
    · rw [hob, hk]
    · rfl
  have hnew : ∀ m ∈ s.sender.sent++[(⟨stream, (s.sender.outbox stream).next,
      (s.sender.outbox stream).base, s.sender.epoch⟩ : Msg)], m ∈ s.sender.sent ∨
        m = ⟨stream, (s.sender.outbox stream).next, (s.sender.outbox stream).base, s.sender.epoch⟩ :=
    fun m hm => (mem_append.mp hm).imp (fun h => h) mem_singleton.mp
  constructor
  · constructor
    · rw [map_append]
      refine nodup_append.mpr ⟨hi.sender.ids, nodup_singleton _, fun a ha b hb hab => ?_⟩
      obtain ⟨m, hm, rfl⟩ := mem_map.mp ha
      have he := hab.trans (mem_singleton.mp hb)
      have hlt := hi.sender.issued m hm
      rw [show m.stream = stream from congrArg Prod.fst he] at hlt
      exact absurd (congrArg Prod.snd he) hlt.ne
    · intro m hm
      show m.seq < (if m.stream = stream then ob else s.sender.outbox m.stream).next
      rcases hnew m hm with hm | rfl
      · have hlt := hi.sender.issued m hm
        split_ifs with hk
        · rw [hk] at hlt
          omega
        · exact hlt
      · rw [if_pos rfl, hnext]
        exact Nat.lt_succ_self _
    · intro k
      dsimp only
      by_cases hk : k = stream
      · rw [if_pos hk, hob, hnext]
        exact ⟨hb1, hb2.trans (Nat.le_succ _), hnext ▸ hres⟩
      · rw [if_neg hk]
        exact hi.sender.box k
    · intro m hm
      rcases hnew m hm with hm | rfl
      · exact hi.sender.stream m hm
      · exact hs
    · intro m hm
      rw [hbase]
      rcases hnew m hm with hm | rfl
      · exact hi.sender.base m hm
      · exact ⟨hb1, hb2, le_refl _⟩
    · intro m hm
      rw [hbase]
      rcases hnew m hm with hm | rfl
      · exact hi.sender.epoch m hm
      · exact ⟨le_refl _, fun _ => rfl⟩
  · exact hi.table
  · exact ⟨hi.calls.conns, fun k hk => mem_append_left _ (hi.calls.sent k hk), hi.calls.phases,
      hi.calls.alone⟩
  · intro st q hq
    rw [hbase]
    exact hi.sound st q hq
  · exact hi.known
  · exact hi.acked

theorem senderCrash_inv : Inv { s with sender := { s.sender with
      epoch := s.sender.epoch+1
      outbox := fun k => outboxReopen (s.sender.outbox k) } } := by
  have hmono : ∀ k, (s.sender.outbox k).base ≤ (outboxReopen (s.sender.outbox k)).base := fun k =>
    (hi.sender.box k).2.1.trans (hi.sender.box k).2.2
  have hold : ∀ m ∈ s.sender.sent, m.epoch ≠ s.sender.epoch+1 := fun m hm he => by
    have := (hi.sender.epoch m hm).1
    omega
  constructor
  · refine ⟨hi.sender.ids, fun m hm => (hi.sender.issued m hm).trans_le (hi.sender.box _).2.2,
      fun k => ⟨Nat.le_add_left _ _, le_refl _, le_refl _⟩, hi.sender.stream, fun m hm => ?_,
      fun m hm => ⟨(hi.sender.epoch m hm).1.trans (Nat.le_succ _), fun he => absurd he (hold m hm)⟩⟩
    obtain ⟨h1, h2, h3⟩ := hi.sender.base m hm
    exact ⟨h1, h2, h3.trans (hmono _)⟩
  · exact hi.table
  · refine ⟨hi.calls.conns, hi.calls.sent, fun k hk => ?_, hi.calls.alone⟩
    have hok := hi.calls.phases k hk
    rw [CallOk] at hok ⊢
    cases hp : k.phase with
    | arrived => trivial
    | admitted | committed =>
      rw [hp] at hok
      exact hok
    | answered ok => exact fun _ he => absurd he (hold _ (hi.calls.sent k hk))
  · intro st q hq
    rcases hi.sound st q hq with h | h | h
    · exact .inl h
    · exact .inr (.inl (h.trans_le (hmono st)))
    · exact .inr (.inr h)
  · exact hi.known
  · exact hi.acked

theorem step_inv {s' : State} {e : Event} (ha : Allowed lim s e)
    (h : step lim s e = some s') : Inv s' := by
  cases e with
  | send stream flushed =>
    obtain ⟨⟨seq, base, ob⟩, hn, rfl⟩ := Option.map_eq_some_iff.mp h
    exact send_inv hi hn ha
  | senderCrash =>
    cases h
    exact senderCrash_inv hi
  | deliver conn m =>
    obtain ⟨⟨hup, hm, hfree⟩, rfl⟩ := Option.ite_some_none_eq_some.mp h
    exact deliver_inv hi hup hm hfree
  | check conn =>
    obtain ⟨k, hk, hm, rfl, hp, rfl⟩ := atPhase_some h
    exact check_inv hi hk hp ha
  | commit conn e =>
    obtain ⟨k, hk, hm, rfl, hp, rfl⟩ := atPhase_some h
    cases e with
    | ok => exact commit_inv hi hm hp
    | failed => exact refuse_inv hi hm hp
    | failedPublished => exact absurd rfl ha.1
    | failedLogged => exact absurd rfl ha.2
  | enter conn =>
    obtain ⟨k, hk, hm, rfl, hp, rfl⟩ := atPhase_some h
    exact enter_inv hi hk hp ha
  | reply conn received =>
    unfold step at h
    dsimp only at h
    split at h
    · rename_i c m ok hk
      obtain ⟨hm, hc⟩ := handler_some hk
      have hl := leave_inv hi hm rfl
      subst hc
      split_ifs at h with hack
      · cases h
        obtain ⟨rfl, -, he⟩ := hack
        exact acked_inv hl (hi.calls.phases _ hm rfl he)
      · cases h
        exact hl
    · cases h
  | flush =>
    obtain ⟨hup, rfl⟩ := Option.ite_some_none_eq_some.mp h
    exact flush_inv hi hup
  | flushCrash =>
    obtain ⟨hup, rfl⟩ := Option.ite_some_none_eq_some.mp h
    exact crash_inv hi (stored_publish_crash hi hup)
  | crash =>
    obtain ⟨hup, rfl⟩ := Option.ite_some_none_eq_some.mp h
    exact crash_inv hi (stored_crash hi hup)
  | reopen =>
    cases hup : s.receiver.up with
    | true =>
      rw [step, hup] at h
      cases h
    | false =>
      rw [step, hup] at h
      cases h
      exact reopen_inv hi hup ha

omit hi

theorem started_inv : Inv started where
  sender := ⟨nodup_nil, fun _ h => (by cases h), fun _ => ⟨le_refl _, le_refl _, le_refl _⟩,
    fun _ h => (by cases h), fun _ h => (by cases h), fun _ h => (by cases h)⟩
  table := ⟨nodup_nil, fun _ h => (by cases h), fun _ => rfl, fun _ => ⟨le_refl _, fun _ h => (by cases h)⟩,
    fun h => (by cases h)⟩
  calls := ⟨nodup_nil, fun _ h => (by cases h), fun _ h => (by cases h), fun _ h => (by cases h)⟩
  sound := fun st q h => absurd h (seen_nil st q)
  known := fun _ _ h => (by cases h)
  acked := fun _ h => (by cases h)

instance (lim : Limits) (s : State) : ∀ e : Event, Decidable (Allowed lim s e)
  | .send stream _ => inferInstanceAs (Decidable (stream%2^32 ≠ trailerMagic))
  | .senderCrash | .deliver _ _ => isTrue trivial
  | .check conn => inferInstanceAs (Decidable (∀ h ∈ s.receiver.handler conn,
    seen (promised lim s.receiver.ledger h.msg) h.msg.stream h.msg.seq = false →
      h.msg.id ∉ s.receiver.forgotten ∧
      ∀ k ∈ s.receiver.handlers, k.phase.busy = true → k.msg.id ≠ h.msg.id))
  | .commit _ e => inferInstanceAs (Decidable (e ≠ .failedPublished ∧ e ≠ .failedLogged))
  | .enter conn => inferInstanceAs (Decidable (∀ h ∈ s.receiver.handler conn,
    seen (record lim s.receiver.ledger h.msg.stream h.msg.seq).2 h.msg.stream h.msg.seq = true))
  | .reply _ _ | .flush | .flushCrash | .crash => isTrue trivial
  | .reopen => inferInstanceAs (Decidable (∀ id ∈ (s.receiver.reopen lim).mem,
    seen (s.receiver.reopen lim).ledger id.1 id.2 = true))

/-- The answer to the first delivery is lost, the receiver crashes and comes
back, and the batch is sent again. -/
def repeated : List Event :=
  [.send 7 true, .deliver 0 ⟨7, 1, 1, 0⟩, .check 0, .commit 0 .ok, .enter 0, .reply 0 false, .crash, .reopen,
    .deliver 0 ⟨7, 1, 1, 0⟩, .check 0, .reply 0 true]

end QEngine.ReplicatedBatches
