import Mathlib.Data.List.Induction
import Mathlib.Data.List.Nodup

/-!
# Sessions of the shared DHT engine

`core/dht.c`: torrents attach to one engine, each with an info hash and the port to
announce, zero for a pure lookup. Searches are issued in two places, by `dht_attach` and
by the periodic loop of the engine thread. Both hold `jech_mu` from the change of the
session list to the search, so an operation is one step.

The vendored engine keeps one search for a hash and stores the port of the search issued
last, so what counts is the history of issued searches. Mailboxes, bootstrap pings and
`dht_periodic` issue no search and are left out.
-/

namespace DhtSessions

/-- `struct dht_session`; `id` stands for its address. -/
structure Session where
  id : Nat
  infoHash : List UInt8
  announcePort : UInt16
  lastSearch : Int
  deriving DecidableEq, Repr

inductive Entry where
  | attached (id : Nat)
  | search (infoHash : List UInt8) (port : UInt16)
  deriving DecidableEq, Repr

/-- `g_dht`, with the addresses given out so far and what happened, newest first. -/
structure Engine where
  refcount : Nat
  sessions : List Session
  nextId : Nat
  log : List Entry
  deriving DecidableEq, Repr

def Engine.init : Engine := ⟨0, [], 0, []⟩

/-- The part of `dht_attach` after the engine is up: the session is put in front of the
list and its search is issued at once. -/
def Engine.enlist (g : Engine) (infoHash : List UInt8) (announcePort : UInt16) : Engine where
  refcount := g.refcount + 1
  sessions := ⟨g.nextId, infoHash, announcePort, 0⟩ :: g.sessions
  nextId := g.nextId + 1
  log := .search infoHash announcePort :: .attached g.nextId :: g.log

/-- `dht_attach`. `allocated` is the answer of `calloc`, `started` that of
`dht_engine_start`, which is asked only for the first session. -/
def dhtAttach (infoHash : List UInt8) (announcePort : UInt16) (allocated started : Bool)
    (g : Engine) : Option Nat × Engine :=
  if allocated = false then (none, g)
  else if g.refcount = 0 ∧ started = false then (none, g)
  else (some g.nextId, g.enlist infoHash announcePort)

/-- `dht_detach`; `none` is the null pointer. -/
def dhtDetach (s : Option Nat) (g : Engine) : Engine :=
  match s with
  | none => g
  | some id =>
    { g with
      sessions := g.sessions.eraseP (fun o => o.id == id)
      refcount := g.refcount - 1 }

/-- A pure lookup is covered by a session for the same hash that carries a port. -/
def covered (all : List Session) (s : Session) : Bool :=
  all.any (fun o => o.id != s.id && o.announcePort != 0 && o.infoHash == s.infoHash)

/-- The loop of `dht_thread_main` that re-issues the searches. The identities, hashes and
ports it looks at in `all` do not change while it runs. -/
def reissue (now : Int) (all : List Session) :
    List Session → List Entry → List Session × List Entry
  | [], log => ([], log)
  | s :: rest, log =>
    if now - s.lastSearch ≤ 60 then
      let r := reissue now all rest log
      (s :: r.1, r.2)
    else if s.announcePort = 0 ∧ covered all s = true then
      let r := reissue now all rest log
      ({ s with lastSearch := now } :: r.1, r.2)
    else
      let r := reissue now all rest (.search s.infoHash s.announcePort :: log)
      ({ s with lastSearch := now } :: r.1, r.2)

/-- One pass of the engine thread at the time `now`. -/
def enginePass (now : Int) (g : Engine) : Engine :=
  let r := reissue now g.sessions g.sessions g.log
  { g with sessions := r.1, log := r.2 }

inductive Event where
  | attach (infoHash : List UInt8) (announcePort : UInt16) (allocated started : Bool)
  | detach (s : Option Nat)
  | pass (now : Int)
  deriving DecidableEq, Repr

def step (g : Engine) : Event → Engine
  | .attach infoHash port allocated started => (dhtAttach infoHash port allocated started g).2
  | .detach s => dhtDetach s g
  | .pass now => enginePass now g

def run (events : List Event) : Engine := events.foldl step Engine.init

/-- An attached session for the hash that has a port to announce. -/
def Carries (infoHash : List UInt8) (s : Session) : Prop :=
  s.infoHash = infoHash ∧ s.announcePort ≠ 0

instance (infoHash : List UInt8) (s : Session) : Decidable (Carries infoHash s) :=
  inferInstanceAs (Decidable (_ ∧ _))

/-- The one attached first: new sessions are put in front of the list. -/
def firstCarrier (g : Engine) (infoHash : List UInt8) : Option Session :=
  (g.sessions.filter (Carries infoHash)).getLast?

/-- What happened since a session attached. -/
def since (g : Engine) (s : Session) : List Entry :=
  g.log.takeWhile (fun e => e ≠ .attached s.id)

def Entry.portFor (infoHash : List UInt8) : Entry → Option UInt16
  | .search other port => if other = infoHash then some port else none
  | .attached _ => none

/-- The port of the most recent search for a hash. -/
def latestPort (infoHash : List UInt8) (entries : List Entry) : Option UInt16 :=
  (entries.filterMap (Entry.portFor infoHash)).head?

def KeepsPort (g : Engine) : Prop :=
  ∀ infoHash s, firstCarrier g infoHash = some s →
    ∃ port, latestPort infoHash (since g s) = some port ∧ port ≠ 0

/-- The step that goes wrong: a pure lookup attaches to a hash some attached session
carries a port for. `dht_attach` issues its search without asking `covered`. -/
def Clobbers (g : Engine) : Event → Prop
  | .attach infoHash port allocated started =>
    port = 0 ∧ allocated = true ∧ (g.refcount = 0 → started = true) ∧
      ∃ s ∈ g.sessions, Carries infoHash s
  | _ => False

theorem reissue_ids (now : Int) (all sessions : List Session) (log : List Entry) :
    (reissue now all sessions log).1.map Session.id = sessions.map Session.id := by
  induction sessions generalizing log with
  | nil => rfl
  | cons s rest ih =>
    rw [reissue]
    split
    · simp [ih]
    · split <;> simp [ih]

/-- A pass changes nothing but the time of the last search. -/
theorem mem_reissue {now : Int} {all sessions : List Session} {log : List Entry} {s' : Session}
    (h : s' ∈ (reissue now all sessions log).1) :
    ∃ s ∈ sessions, s'.id = s.id ∧ s'.infoHash = s.infoHash ∧
      s'.announcePort = s.announcePort := by
  induction sessions generalizing log with
  | nil => cases h
  | cons s rest ih =>
    rw [reissue] at h
    split at h
    · rcases List.mem_cons.mp h with rfl | htail
      · exact ⟨s', List.mem_cons_self, rfl, rfl, rfl⟩
      · obtain ⟨o, ho, hsame⟩ := ih htail
        exact ⟨o, List.mem_cons_of_mem _ ho, hsame⟩
    · split at h
      all_goals
        rcases List.mem_cons.mp h with rfl | htail
        · exact ⟨s, List.mem_cons_self, rfl, rfl, rfl⟩
        · obtain ⟨o, ho, hsame⟩ := ih htail
          exact ⟨o, List.mem_cons_of_mem _ ho, hsame⟩

/-- What a pass appends: searches of sessions in the list, and none of a covered lookup. -/
def Reissued (all sessions : List Session) (e : Entry) : Prop :=
  ∃ s ∈ sessions, e = .search s.infoHash s.announcePort ∧
    (s.announcePort = 0 → covered all s = false)

theorem Reissued.cons {all sessions : List Session} {e : Entry} (h : Reissued all sessions e)
    (s : Session) : Reissued all (s :: sessions) e := by
  obtain ⟨o, ho, heq, hcov⟩ := h
  exact ⟨o, List.mem_cons_of_mem _ ho, heq, hcov⟩

theorem reissue_log (now : Int) (all sessions : List Session) (log : List Entry) :
    ∃ new, (reissue now all sessions log).2 = new ++ log ∧
      ∀ e ∈ new, Reissued all sessions e := by
  induction sessions generalizing log with
  | nil => exact ⟨[], rfl, by simp⟩
  | cons s rest ih =>
    rw [reissue]
    split
    · obtain ⟨new, heq, hnew⟩ := ih log
      exact ⟨new, heq, fun e he => (hnew e he).cons s⟩
    · split
      · obtain ⟨new, heq, hnew⟩ := ih log
        exact ⟨new, heq, fun e he => (hnew e he).cons s⟩
      · next hcov =>
        obtain ⟨new, heq, hnew⟩ := ih (.search s.infoHash s.announcePort :: log)
        refine ⟨new ++ [.search s.infoHash s.announcePort], by simp [heq], fun e he => ?_⟩
        rcases List.mem_append.mp he with hold | hlast
        · exact (hnew e hold).cons s
        · refine ⟨s, List.mem_cons_self, List.mem_singleton.mp hlast, fun hzero => ?_⟩
          by_contra hc
          exact hcov ⟨hzero, by simpa using hc⟩

/-- A stretch of the history in which the hash was searched, always with a port. -/
def PortOnly (infoHash : List UInt8) (entries : List Entry) : Prop :=
  (∃ port, .search infoHash port ∈ entries) ∧
    ∀ port, .search infoHash port ∈ entries → port ≠ 0

theorem PortOnly.latest {infoHash : List UInt8} {entries : List Entry}
    (h : PortOnly infoHash entries) :
    ∃ port, latestPort infoHash entries = some port ∧ port ≠ 0 := by
  obtain ⟨⟨port, hport⟩, hall⟩ := h
  have hmem : port ∈ entries.filterMap (Entry.portFor infoHash) :=
    List.mem_filterMap.mpr ⟨_, hport, by simp [Entry.portFor]⟩
  obtain ⟨first, rest, hcut⟩ := List.exists_cons_of_ne_nil (List.ne_nil_of_mem hmem)
  refine ⟨first, by simp [latestPort, hcut], ?_⟩
  have hfirst : first ∈ entries.filterMap (Entry.portFor infoHash) := by
    rw [hcut]
    exact List.mem_cons_self
  obtain ⟨e, he, hfor⟩ := List.mem_filterMap.mp hfirst
  cases e with
  | attached id => cases hfor
  | search other p =>
    simp only [Entry.portFor] at hfor
    split at hfor
    · next hother =>
      cases hfor
      exact hall _ (hother ▸ he)
    · cases hfor

theorem PortOnly.append {infoHash : List UInt8} {entries new : List Entry}
    (h : PortOnly infoHash entries) (hnew : ∀ port, .search infoHash port ∈ new → port ≠ 0) :
    PortOnly infoHash (new ++ entries) := by
  obtain ⟨⟨port, hport⟩, hall⟩ := h
  refine ⟨⟨port, List.mem_append_right _ hport⟩, fun p hp => ?_⟩
  rcases List.mem_append.mp hp with hfront | hback
  · exact hnew p hfront
  · exact hall p hback

theorem since_append {g g' : Engine} {s : Session} {new : List Entry}
    (hlog : g'.log = new ++ g.log) (hnew : Entry.attached s.id ∉ new) :
    since g' s = new ++ since g s := by
  rw [since, since, hlog, List.takeWhile_append_of_pos]
  intro e he
  simpa using fun heq : e = .attached s.id => hnew (heq ▸ he)

structure Guarded (g : Engine) : Prop where
  fresh : ∀ s ∈ g.sessions, s.id < g.nextId
  distinct : (g.sessions.map Session.id).Nodup
  carriers : ∀ infoHash s, s ∈ g.sessions → Carries infoHash s → PortOnly infoHash (since g s)

theorem Guarded.init : Guarded Engine.init :=
  ⟨by simp [Engine.init], by simp [Engine.init], by simp [Engine.init]⟩

theorem Guarded.keepsPort {g : Engine} (h : Guarded g) : KeepsPort g := by
  intro infoHash s hfirst
  have hmem := List.mem_of_getLast? hfirst
  rw [List.mem_filter, decide_eq_true_eq] at hmem
  exact (h.carriers infoHash s hmem.1 hmem.2).latest

theorem Guarded.detach {g : Engine} (h : Guarded g) (s : Option Nat) : Guarded (dhtDetach s g) := by
  cases s with
  | none => exact h
  | some id =>
    have hsub : (dhtDetach (some id) g).sessions.Sublist g.sessions := List.eraseP_sublist
    exact ⟨fun o ho => h.fresh o (hsub.subset ho), h.distinct.sublist (hsub.map _),
      fun infoHash o ho hc => h.carriers infoHash o (hsub.subset ho) hc⟩

theorem since_enlist_new (g : Engine) (infoHash : List UInt8) (port : UInt16) (time : Int) :
    since (g.enlist infoHash port) ⟨g.nextId, infoHash, port, time⟩ = [.search infoHash port] := by
  simp [since, Engine.enlist]

theorem since_enlist_old {g : Engine} {s : Session} (h : s.id < g.nextId)
    (infoHash : List UInt8) (port : UInt16) :
    since (g.enlist infoHash port) s =
      [.search infoHash port, .attached g.nextId] ++ since g s := by
  apply since_append rfl
  simpa using Nat.ne_of_lt h

theorem Guarded.enlist {g : Engine} (h : Guarded g) {infoHash : List UInt8} {port : UInt16}
    (hok : port = 0 → ∀ s ∈ g.sessions, ¬ Carries infoHash s) :
    Guarded (g.enlist infoHash port) := by
  refine ⟨?_, ?_, ?_⟩
  · intro s hs
    rcases List.mem_cons.mp hs with rfl | hold
    · exact Nat.lt_succ_self _
    · exact Nat.lt_succ_of_lt (h.fresh s hold)
  · rw [Engine.enlist, List.map_cons, List.nodup_cons]
    refine ⟨fun hmem => ?_, h.distinct⟩
    obtain ⟨s, hs, hid⟩ := List.mem_map.mp hmem
    exact absurd hid (Nat.ne_of_lt (h.fresh s hs))
  · intro target s hs hc
    rcases List.mem_cons.mp hs with rfl | hold
    · -- the new session: its own search is all that happened since
      obtain ⟨rfl, hport⟩ := hc
      rw [since_enlist_new]
      exact ⟨⟨port, List.mem_cons_self⟩, by simpa using hport⟩
    · -- an old one: the new search is for another hash or carries a port
      rw [since_enlist_old (h.fresh s hold)]
      refine (h.carriers target s hold hc).append fun p hp hzero => ?_
      obtain ⟨rfl, rfl⟩ : target = infoHash ∧ p = port := by simpa using hp
      exact hok hzero s hold hc

theorem Guarded.attach {g : Engine} (h : Guarded g) {infoHash : List UInt8} {port : UInt16}
    {allocated started : Bool} (hok : ¬ Clobbers g (.attach infoHash port allocated started)) :
    Guarded (dhtAttach infoHash port allocated started g).2 := by
  rw [dhtAttach]
  split
  · exact h
  · next halloc =>
    split
    · exact h
    · next hstart =>
      refine h.enlist fun hzero s hs hc => hok ⟨hzero, by simpa using halloc, fun hcount => ?_,
        s, hs, hc⟩
      simpa [hcount] using hstart

theorem Guarded.pass {g : Engine} (h : Guarded g) (now : Int) : Guarded (enginePass now g) := by
  obtain ⟨new, hlog, hnew⟩ := reissue_log now g.sessions g.sessions g.log
  refine ⟨?_, ?_, ?_⟩
  · intro s' hs'
    obtain ⟨s, hs, hid, -⟩ := mem_reissue hs'
    rw [hid]
    exact h.fresh s hs
  · rw [enginePass, reissue_ids]
    exact h.distinct
  · intro infoHash s' hs' hc
    obtain ⟨s, hs, hid, hhash, hport⟩ := mem_reissue hs'
    have hcs : Carries infoHash s := ⟨hhash ▸ hc.1, hport ▸ hc.2⟩
    have hsame : since (enginePass now g) s' = since (enginePass now g) s := by
      rw [since, since, hid]
    have hnone : Entry.attached s.id ∉ new := by
      intro hmem
      obtain ⟨o, -, heq, -⟩ := hnew _ hmem
      cases heq
    have hgrown : since (enginePass now g) s = new ++ since g s := since_append hlog hnone
    rw [hsame, hgrown]
    refine (h.carriers infoHash s hs hcs).append fun p hp hzero => ?_
    -- a search without a port comes from a lookup that nothing covers, but `s` covers it
    obtain ⟨o, ho, heq, hcov⟩ := hnew _ hp
    cases heq
    have hother : s.id ≠ o.id := by
      intro heq
      have : s = o := List.inj_on_of_nodup_map h.distinct hs ho heq
      exact hcs.2 (this ▸ hzero)
    have hcover : covered g.sessions o = true :=
      List.any_eq_true.mpr ⟨s, hs, by simp [hother, hcs.1, hcs.2]⟩
    rw [hcov hzero] at hcover
    cases hcover

theorem Guarded.step {g : Engine} (h : Guarded g) {ev : Event} (hok : ¬ Clobbers g ev) :
    Guarded (step g ev) := by
  cases ev with
  | attach infoHash port allocated started => exact h.attach hok
  | detach s => exact h.detach s
  | pass now => exact h.pass now

theorem run_snoc (events : List Event) (ev : Event) :
    run (events ++ [ev]) = step (run events) ev := by
  simp [run]

theorem guarded_run {events : List Event}
    (h : ∀ before ev, before ++ [ev] <+: events → ¬ Clobbers (run before) ev) :
    Guarded (run events) := by
  induction events using List.reverseRecOn with
  | nil => exact Guarded.init
  | append_singleton events ev ih =>
    rw [run_snoc]
    refine (ih fun before e hpre => ?_).step (h events ev List.prefix_rfl)
    exact h before e (hpre.trans (List.prefix_append _ _))

/-- After a clobbering attach the most recent search has no port. -/
theorem Clobbers.not_keepsPort {g : Engine} {ev : Event} (h : Clobbers g ev) :
    ¬ KeepsPort (DhtSessions.step g ev) := by
  cases ev with
  | detach s => exact h.elim
  | pass now => exact h.elim
  | attach infoHash port allocated started =>
    obtain ⟨rfl, rfl, hstart, s, hs, hc⟩ := h
    have hdone : DhtSessions.step g (.attach infoHash 0 true started) = g.enlist infoHash 0 := by
      have hup : ¬ (g.refcount = 0 ∧ started = false) := fun hno => by
        simpa [hno.2] using hstart hno.1
      simp [DhtSessions.step, dhtAttach, hup]
    rw [hdone]
    intro hkeeps
    have hmem : s ∈ (g.enlist infoHash 0).sessions.filter (Carries infoHash) :=
      List.mem_filter.mpr ⟨List.mem_cons_of_mem _ hs, by simpa using hc⟩
    obtain ⟨first, hfirst⟩ := Option.isSome_iff_exists.mp
      (List.getLast?_isSome.mpr (List.ne_nil_of_mem hmem))
    obtain ⟨port, hport, hnonzero⟩ := hkeeps infoHash first hfirst
    have hlatest : latestPort infoHash (since (g.enlist infoHash 0) first) = some 0 := by
      simp [latestPort, since, Engine.enlist, Entry.portFor]
    rw [hlatest] at hport
    cases hport
    exact hnonzero rfl

/-- A port-carrying session keeps its port at every moment of a run exactly when no pure
lookup ever attaches to its hash. -/
theorem keepsPort_iff (events : List Event) :
    (∀ before, before <+: events → KeepsPort (run before)) ↔
      ∀ before ev, before ++ [ev] <+: events → ¬ Clobbers (run before) ev := by
  constructor
  · intro h before ev hpre hclob
    have hafter := h _ hpre
    rw [run_snoc] at hafter
    exact hclob.not_keepsPort hafter
  · intro h before hpre
    exact (guarded_run fun b ev hb => h b ev (hb.trans hpre)).keepsPort

/-- A torrent announces port 6881 and a lookup attaches to the same hash. -/
def lookupAfterTorrent : List Event :=
  [.attach (List.replicate 20 7) 6881 true true, .attach (List.replicate 20 7) 0 true true]

theorem lookup_clobbers_port : ¬ ∀ events, KeepsPort (run events) := by
  intro h
  have hattached : ∃ s ∈ (run (lookupAfterTorrent.take 1)).sessions,
      Carries (List.replicate 20 7) s := by decide
  have hclob : Clobbers (run (lookupAfterTorrent.take 1))
      (.attach (List.replicate 20 7) 0 true true) := ⟨rfl, rfl, fun _ => rfl, hattached⟩
  exact hclob.not_keepsPort (h lookupAfterTorrent)

end DhtSessions
