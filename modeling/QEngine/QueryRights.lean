import QEngine.SuperTables

/-!
# Rights of a session

A SELECT needs the privilege on the table after FROM, whose name is cut to the field
of a grant. The right table of a join and the children of a super table are read
without a further check.
-/

namespace QEngine.QueryRights
open List QueryTables RowProjections SelectQueries SuperTables

structure Session where
  token : String
  user : String
  admin : Bool

structure Grant where
  user : String
  priv : ℕ
  resource : String

structure Auth where
  tokens : List Session
  grants : List Grant

def privSelect : ℕ := 1
def privAll : ℕ := 7

def grantMatches (g : Grant) (priv : ℕ) (resource : String) : Bool :=
  (g.priv &&& priv) = priv && (g.resource = "*" || g.resource = resource)

def Auth.session (a : Auth) (token : String) : Option Session := a.tokens.find? fun t => t.token = token

def authVerify (a : Auth) (token : String) (priv : ℕ) (resource : String) : Bool :=
  let priv := priv &&& privAll
  priv ≠ 0 && (a.session token).any fun t =>
    t.admin || a.grants.any fun g => g.user = t.user && grantMatches g priv resource

inductive Refusal where
  | permission
  | failed (f : Failure)
  deriving DecidableEq

/-- `tsdb_query_auth` for the text of a SELECT, which is parsed again by the query. -/
def queryAuth (e : Engine) (a : Auth) (token : String) (text : Except Failure Select) (d : Database) :
    Except Refusal Answer :=
  match text with
  | .error f => .error (.failed f)
  | .ok sel =>
    if authVerify a token privSelect (cut sel.source) then (query e d sel).mapError .failed
    else .error .permission

def MayRead (a : Auth) (user name : String) : Prop := ∃ g ∈ a.grants, g.user = user ∧
    grantMatches g privSelect name = true

structure Alike (name : String) (d d' : Database) : Prop where
  tables : ∀ x, x ≠ name → d.tables x = d'.tables x
  stables : d.stables = d'.stables
  storage : ∀ x, x ≠ name → d.storage x = d'.storage x
  rebuilt : ∀ x, x ≠ name → d.rebuilt x = d'.rebuilt x

section Alike

variable {e : Engine} {sel : Select} {d d' : Database} {name : String}

theorem selectStored_alike (hd : Alike name d d') (hr : ∀ r, sel.right = some r → r ≠ name) :
    selectStored e sel d = selectStored e sel d' := by
  funext cond kinds x
  unfold selectStored
  split
  · rw [hd.tables _ (hr _ ‹_›)]
  · rfl

theorem childrenOf_alike (hd : Alike name d d') {st : Stable} (hs : st.name ≠ name)
    (hc : ∀ c ∈ st.children, c.name ≠ name) : childrenOf d st = childrenOf d' st := by
  unfold childrenOf
  rw [hd.tables _ hs, hd.storage _ hs, hd.rebuilt _ hs]
  have hmap : (st.children.map fun c => (c, d.tables c.name)) = st.children.map fun c =>
    (c, d'.tables c.name) :=
    map_congr_left fun c h => by rw [hd.tables _ (hc c h)]
  cases hl : st.children with
  | nil => rfl
  | cons c cs =>
    rw [hl] at hmap
    exact congrArg Except.ok hmap

/-- A query that names neither the table nor a super table over it does not depend on it. -/
theorem query_alike (hd : Alike name d d') (hs : sel.source ≠ name) (hr : ∀ r, sel.right = some r → r ≠ name)
    (hc : ∀ st, d.stables sel.source = some st → ∀ c ∈ st.children, c.name ≠ name) :
    query e d sel = query e d' sel := by
  unfold query
  rw [← hd.stables]
  cases hst : d.stables sel.source with
  | none =>
    dsimp only
    rw [hd.tables _ hs, selectStored_alike hd hr]
  | some st =>
    have hn : st.name ≠ name := d.named _ st hst ▸ hs
    have hrun : runChild e sel d = runChild e sel d' := by
      funext cond kinds c
      rw [runChild, runChild, selectStored_alike hd hr]
    show execStableSelect e d none sel st = execStableSelect e d' none sel st
    unfold execStableSelect
    rw [childrenOf_alike hd hn (hc st hst), hd.storage _ hn, hrun]

end Alike

theorem verified_reads {a : Auth} {token name : String} {t : Session} (ht : a.session token = some t)
    (hn : t.admin = false) (h : authVerify a token privSelect name = true) : MayRead a t.user name := by
  unfold authVerify at h
  have h := ((Bool.and_eq_true ..).mp h).2
  rw [ht, Option.any_some, hn, Bool.false_or] at h
  obtain ⟨g, hg, h⟩ := any_eq_true.mp h
  obtain ⟨hu, hm⟩ := (Bool.and_eq_true ..).mp h
  exact ⟨g, hg, of_decide_eq_true hu, hm⟩

/-- A statement whose check passed does not open the table `name` unchecked: it is not the right table of a
join whose left table opens, and a name that the check cut is neither its name nor that of a super
table over it. -/
structure Unopened (d : Database) (sel : Select) (name : String) : Prop where
  right : sel.right = some name → d.stables sel.source = none ∧ ∃ f, d.tables sel.source = .error f
  long : 64 ≤ sel.source.toList.length → sel.source ≠ name ∧
    ∀ st, d.stables sel.source = some st → ∀ c ∈ st.children, c.name ≠ name

theorem query_unopened {e : Engine} {sel : Select} {d d' : Database} {name : String} (hd : Alike name d d')
    (hs : sel.source ≠ name) (hc : ∀ st, d.stables sel.source = some st → ∀ c ∈ st.children, c.name ≠ name)
    (h : Unopened d sel name) : query e d sel = query e d' sel := by
  by_cases hr : sel.right = some name
  · obtain ⟨hst, f, hf⟩ := h.right hr
    unfold query
    rw [← hd.stables, hst]
    dsimp only
    rw [← hd.tables _ hs, hf]
  · exact query_alike hd hs (fun r hx he => hr (hx.trans (congrArg some he))) hc

def oneRight : Auth := ⟨[⟨"key", "u", false⟩], [⟨"u", 1, "a"⟩]⟩

def allRows : Select where
  source := "t"
  right := none
  cond := none
  byName := false
  calls := none
  query := fun {n} _ => .ok ⟨(List.finRange n).map .col, none, none, none, none, [], none, none⟩
  join := fun _ _ => ⟨.ok [], [], none, none⟩

def alone (t : Table twoCols) : Database where
  tables := fun name => if name = "t" then .ok ⟨twoCols, t⟩ else .error ⟨.notFound, ""⟩
  stables := fun _ => none
  storage := fun _ => false
  rebuilt := fun _ => .error ⟨.notFound, ""⟩
  named := fun _ _ h => absurd h (by simp)

def twoTables (v : UInt64) : Database :=
  { alone (memOnly []) with
      tables := fun name =>
        if name = "a" then .ok ⟨twoCols, memOnly [![5, 0]]⟩
        else if name = "b" then .ok ⟨twoCols, memOnly [![1, v]]⟩
        else .error ⟨.notFound, ""⟩ }

def joined : Select :=
  { allRows with
      source := "a"
      right := some "b"
      join := fun {_ m} _ _ => ⟨.ok (((List.finRange m).getLast?.map Sum.inr).toList), [], none, none⟩ }

theorem alike_b : Alike "b" (twoTables 7) (twoTables 8) where
  tables := fun x hx => by
    show (if x = "a" then _ else if x = "b" then _ else _) = _
    rw [if_neg hx]
    exact (congrArg (fun y => if x = "a" then _ else y) (if_neg hx)).symm
  stables := rfl
  storage := fun _ _ => rfl
  rebuilt := fun _ _ => rfl

theorem unread_by_u : ¬ MayRead oneRight "u" "b" := by
  rintro ⟨g, hg, -, h⟩
  cases mem_singleton.mp hg
  exact absurd h (by decide)

end QEngine.QueryRights
