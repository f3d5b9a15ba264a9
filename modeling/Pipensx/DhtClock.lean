import Pipensx.DhtRuns

/-!
# Runs whose clock does not go back

Stored peers are young, a token is good for fifteen minutes, and requests are answered at a bounded
rate.
-/

namespace Dht

/-- The time after a call, of those that look at the clock. -/
def Call.clock (t : Int) : Call → Int
  | .init now _ _ => now
  | .periodic now _ => now
  | _ => t

def clock (t : Int) (calls : List Call) : Int := calls.foldl Call.clock t

/-- The clock does not go back. -/
def Steady : Int → List Call → Prop
  | _, [] => True
  | t, c :: calls => t ≤ c.clock t ∧ Steady (c.clock t) calls

variable {w : World} {s s' : State} {t : Int}

theorem run_steady {P : State → Int → Prop} (hcall : ∀ s t c, Sound s → P s t → t ≤ Call.clock t c →
    P (call w s c) (c.clock t)) (calls : List Call) (hs : Sound s) (hp : P s t)
    (hsteady : Steady t calls) : P (run w s calls) (clock t calls) := by
  induction calls generalizing s t with
  | nil => exact hp
  | cons c calls ih => exact ih (sound_call w hs c) (hcall s t c hs hp hsteady.1) hsteady.2

theorem steady_append {calls calls' : List Call} :
    Steady t (calls ++ calls') ↔ Steady t calls ∧ Steady (clock t calls) calls' := by
  induction calls generalizing t with
  | nil => simp [Steady, clock]
  | cons c calls ih => simp [Steady, clock, ih, and_assoc]

theorem tokenBucket_frame (s : State) : ∃ time tokens, (tokenBucket s).2 =
    { s with tokenBucketTime := time, tokenBucketTokens := tokens } := by
  unfold tokenBucket
  dsimp only
  by_cases hzero : s.tokenBucketTokens = 0
  · rw [if_pos hzero]
    split <;> exact ⟨_, _, rfl⟩
  · rw [if_neg hzero, if_neg hzero]
    exact ⟨_, _, rfl⟩

/-- What stays around searches: all of the frame but the searches. -/
theorem Ask.frame (h : Ask w s s') :
    { s'.frame with targets := [] } = { s.frame with targets := [] } := by
  cases h with
  | moves _ h => rw [h.frame]
  | slot s1 k id _ h =>
    obtain ⟨_, heq, _⟩ := newSearch_some h
    rw [heq]
    rfl
  | aim k port => rfl

theorem Asks.frame (h : Asks w s s') :
    { s'.frame with targets := [] } = { s.frame with targets := [] } := by
  induction h with
  | refl => rfl
  | tail _ hask ih => exact hask.frame.trans ih

theorem Turn.now (h : Turn w s s') : s'.now = s.now ∧ s'.opened = s.opened := by
  cases h with
  | ask _ h => exact ⟨congrArg Frame.now h.frame, congrArg Frame.opened h.frame⟩
  | limit =>
    obtain ⟨_, _, heq⟩ := tokenBucket_frame s
    rw [heq]
    exact ⟨rfl, rfl⟩
  | flush id sa => exact ⟨rfl, rfl⟩
  | store sa m _ =>
    obtain ⟨_, heq⟩ := storageStore_frame (w := w) (s := s) m.infoHash sa (announcedPort sa m)
    rw [heq]
    exact ⟨rfl, rfl⟩
  | rotate _ => exact ⟨rfl, rfl⟩
  | expire _ _ _ => exact ⟨rfl, rfl⟩

theorem Turns.now (h : Turns w s s') : s'.now = s.now ∧ s'.opened = s.opened := by
  induction h with
  | refl => exact ⟨rfl, rfl⟩
  | tail _ hturn ih => exact ⟨hturn.now.1.trans ih.1, hturn.now.2.trans ih.2⟩

/-- The age of what is stored, by the time of the next expiry. -/
structure Young (s : State) (t : Int) : Prop where
  now : s.now ≤ t
  next : s.expireStuffTime < s.now + 360
  peers : ∀ st ∈ s.storage, ∀ p ∈ st.peers, s.expireStuffTime - 2280 < p.time

theorem Ask.young (ha : Ask w s s') (h : Young s t) : Young s' t := by
  have hnow : s'.now = s.now := congrArg Frame.now ha.frame
  have hnext : s'.expireStuffTime = s.expireStuffTime := congrArg Frame.expireStuffTime ha.frame
  have hstorage : s'.storage = s.storage := congrArg Frame.storage ha.frame
  refine ⟨hnow ▸ h.now, ?_, ?_⟩
  · rw [hnow, hnext]
    exact h.next
  · rw [hstorage, hnext]
    exact h.peers

theorem young_store (h : Young s t) (id : Id) (sa : Endpoint) (port : UInt16) :
    Young (storageStore w s id sa port).2 t := by
  obtain ⟨_, heq⟩ := storageStore_frame (w := w) (s := s) id sa port
  have hcases := storageStore_cases w s id sa port
  generalize (storageStore w s id sa port).2 = s1 at heq hcases
  have hnow : s1.now = s.now := by rw [heq]
  have hnext : s1.expireStuffTime = s.expireStuffTime := by rw [heq]
  refine ⟨by rw [hnow]; exact h.now, by rw [hnow, hnext]; exact h.next, ?_⟩
  rw [hnext]
  rcases hcases with hsame | ⟨storage, k, st, hstart, hst, _, allocs, hset⟩
  · rw [hsame]
    exact h.peers
  · have hbefore : ∀ st ∈ storage, ∀ p ∈ st.peers, s.expireStuffTime - 2280 < p.time := by
      rcases hstart with rfl | ⟨_, _, rfl⟩
      · exact h.peers
      · intro st hst
        rcases List.mem_cons.mp hst with rfl | hst
        · simp
        · exact h.peers st hst
    intro st' hst' p hp
    rw [hset] at hst'
    rcases List.mem_or_eq_of_mem_set hst' with hst' | rfl
    · exact hbefore st' hst' p hp
    · have hfuture := h.next
      rcases storePeer_mem hp with ⟨q, hq, _, rfl | ⟨rfl, _⟩⟩ | rfl
      · exact hbefore st (List.mem_of_getElem? hst) _ hq
      · dsimp only
        omega
      · dsimp only
        omega

theorem Turn.young (ht : Turn w s s') (h : Young s t) : Young s' t := by
  cases ht with
  | ask _ ha => exact ha.young h
  | limit =>
    obtain ⟨_, _, heq⟩ := tokenBucket_frame s
    rw [heq]
    exact ⟨h.now, h.next, h.peers⟩
  | flush id sa => exact ⟨h.now, h.next, h.peers⟩
  | store sa m _ => exact young_store h _ _ _
  | rotate _ => exact ⟨h.now, h.next, h.peers⟩
  | expire t' _ hnext =>
    refine ⟨h.now, hnext, ?_⟩
    intro st hst p hp
    have hfresh := (expireStorage_fresh { s with expireStuffTime := t' } hst).2.1 p hp
    simp only [fresh, decide_eq_true_eq] at hfresh
    show t' - 2280 < p.time
    omega

theorem young_init (h : Young s t) (now : Int) (hnow : t ≤ now) (id : Id) (v : Vector UInt8 4) :
    Young (dhtInit w s now id v).2 now := by
  have hlater : Young s now := ⟨Int.le_trans h.now hnow, h.next, h.peers⟩
  rcases dhtInit_cases w s now id v with heq | ⟨_, _, heq | ⟨s1, draws, r, h1, heq⟩⟩ <;> rw [heq]
  · exact hlater
  · exact ⟨hlater.now, h.next, by simp⟩
  · -- nothing is stored, and the next expiry is near
    have hn : s1.now = now := h1.now
    have hst : s1.storage = [] := h1.storage
    refine ⟨Int.le_of_eq hn, ?_, ?_⟩
    · show s1.now + 120 + r % 240 < s1.now + 360
      omega
    · show ∀ st ∈ s1.storage, _
      rw [hst]
      simp

theorem young_call (hs : Sound s) (h : Young s t) (c : Call) (hc : t ≤ c.clock t) :
    Young (call w s c) (c.clock t) := by
  have hturns : ∀ {s s' : State} {t : Int}, Turns w s s' → Young s t → Young s' t := by
    intro s s' t hs h
    exact hs.keeps (P := fun s => Young s t) (fun _ _ h ht => ht.young h) h
  cases c with
  | init now id v => exact young_init h now hc id v
  | uninit =>
    simp only [call, dhtUninit, Call.clock]
    split
    · exact h
    · exact ⟨h.now, h.next, by simp⟩
  | periodic now datagram =>
    refine hturns (turns_dhtPeriodic w s now datagram hs.table) ⟨Int.le_refl _, ?_, h.peers⟩
    have := h.next
    have := h.now
    simp only [Call.clock] at hc
    show s.expireStuffTime < now + 360
    omega
  | search id port => exact hturns (asks_dhtSearch w s id port).turns h
  | pingNode sa => exact (Ask.moves (w := w) _ (moves_sendPing s sa)).young h
  | insertNode id sa => exact (Ask.moves (w := w) _ (moves_newNode w s id sa 0 hs.table)).young h

/-- After a call of `dht_periodic`, every stored peer has announced itself in the last 38 minutes.
-/
theorem run_young (w : World) (calls : List Call) (now : Int)
    (datagram : Option (Endpoint × List UInt8))
    (hsteady : Steady 0 (calls ++ [.periodic now datagram])) :
    ∀ st ∈ (run w State.boot (calls ++ [.periodic now datagram])).storage, ∀ p ∈ st.peers,
      now - 2280 < p.time := by
  obtain ⟨hcalls, hlast, _⟩ := steady_append.mp hsteady
  have hstart : Young State.boot 0 := ⟨Int.le_refl _, by decide, by simp [State.boot]⟩
  have hsound := sound_run w Sound.boot calls
  have h := run_steady (w := w) (P := Young) (fun s t c hs hp hc => young_call hs hp c hc) calls
    Sound.boot hstart hcalls
  simp only [run, List.foldl_append, List.foldl_cons, List.foldl_nil, call] at h hsound ⊢
  generalize calls.foldl (call w) State.boot = s at h hsound
  simp only [Call.clock] at hlast
  -- at the latest here everything stale has gone
  have hlater : Young { s with now := now } now := by
    refine ⟨Int.le_refl _, ?_, h.peers⟩
    have := h.next
    have := h.now
    show s.expireStuffTime < now + 360
    omega
  have hheard := turns_hear w { s with now := now } datagram hsound.table
  have hturns := hheard.trans (turns_rotateIfDue w _)
  have h1 : Young (rotateIfDue w (hear w { s with now := now } datagram)) now :=
    hturns.keeps (P := fun s => Young s now) (fun _ _ h ht => ht.young h) hlater
  have hnow := hturns.now.1
  unfold dhtPeriodic
  dsimp only
  generalize rotateIfDue w (hear w { s with now := now } datagram) = s1 at h1 hnow
  rw [((moves_searchIfDue w _).trans (moves_confirmIfDue w _)).storage]
  dsimp only at hnow
  rcases expireIfDue_cases w s1 with ⟨hnot, heq⟩ | ⟨s2, t, _, h2, _, heq⟩
  · rw [heq]
    intro st hst p hp
    have := h1.peers st hst p hp
    omega
  · rw [heq]
    intro st hst p hp
    have hfresh := (expireStorage_fresh { s2 with expireStuffTime := t } hst).2.1 p hp
    simp only [fresh, decide_eq_true_eq] at hfresh
    have := h2.now
    omega

/-- One peer is stored in the last call. -/
theorem run_young_first :
    (run World.calm State.boot (firstCalls ++ [.periodic 1700 (some firstAnnounce)])).storage.map
        (fun st => st.peers.length) = [1] ∧
    ∀ st ∈ (run World.calm State.boot
      (firstCalls ++ [.periodic 1700 (some firstAnnounce)])).storage, ∀ p ∈ st.peers,
      1700 - 2280 < p.time :=
  ⟨by decide +kernel, run_young World.calm firstCalls 1700 (some firstAnnounce)
    (by simp [Steady, firstCalls, Call.clock])⟩

theorem storageStore_secrets (id : Id) (sa : Endpoint) (port : UInt16) :
    (storageStore w s id sa port).2.secret = s.secret ∧
      (storageStore w s id sa port).2.oldsecret = s.oldsecret ∧
      (storageStore w s id sa port).2.rotateSecretsTime = s.rotateSecretsTime := by
  obtain ⟨_, heq⟩ := storageStore_frame (w := w) (s := s) id sa port
  rw [heq]
  exact ⟨rfl, rfl, rfl⟩

/-- The secrets change when it is time for it, and in no other way. -/
theorem Turn.secrets (h : Turn w s s') :
    (s'.secret = s.secret ∧ s'.oldsecret = s.oldsecret ∧
      s'.rotateSecretsTime = s.rotateSecretsTime) ∨
      (s.rotateSecretsTime ≤ s.now ∧ s' = rotateSecrets w s) := by
  cases h with
  | ask _ h => exact Or.inl ⟨congrArg Frame.secret h.frame, congrArg Frame.oldsecret h.frame,
      congrArg Frame.rotateSecretsTime h.frame⟩
  | limit =>
    obtain ⟨_, _, heq⟩ := tokenBucket_frame s
    rw [heq]
    exact Or.inl ⟨rfl, rfl, rfl⟩
  | flush id sa => exact Or.inl ⟨rfl, rfl, rfl⟩
  | store sa m _ => exact Or.inl (storageStore_secrets _ _ _)
  | rotate hdue => exact Or.inr ⟨hdue, rfl⟩
  | expire _ _ _ => exact Or.inl ⟨rfl, rfl, rfl⟩

/-- A secret that was in use at `t0` is still good at `t`, or that is fifteen minutes later. -/
structure Honoured (secret : Vector UInt8 8) (t0 : Int) (s : State) (t : Int) : Prop where
  since : t0 ≤ s.now
  now : s.now ≤ t
  opened : s.opened = true
  good : t0 + 900 ≤ t ∨ s.secret = secret ∨ (s.oldsecret = secret ∧ t0 + 900 ≤ s.rotateSecretsTime)

theorem Turn.honoured {secret : Vector UInt8 8} {t0 : Int} (ht : Turn w s s')
    (h : Honoured secret t0 s t) : Honoured secret t0 s' t := by
  have hnow := ht.now
  have hsince := h.since
  have hlate := h.now
  refine ⟨by omega, by omega, hnow.2.trans h.opened, ?_⟩
  rcases ht.secrets with ⟨h1, h2, h3⟩ | ⟨hdue, rfl⟩
  · rw [h1, h2, h3]
    exact h.good
  · rcases h.good with hold | hcurrent | ⟨_, hkept⟩
    · exact Or.inl hold
    · -- the one in use becomes the old one
      refine Or.inr (Or.inr ⟨hcurrent, ?_⟩)
      show t0 + 900 ≤ s.now + 900 + (w.random s.draws : Nat) % 1800
      omega
    · exact Or.inl (by omega)

theorem honoured_call {secret : Vector UInt8 8} {t0 : Int} (hs : Sound s)
    (h : Honoured secret t0 s t) (c : Call) (hup : c ≠ .uninit) (hc : t ≤ c.clock t) :
    Honoured secret t0 (call w s c) (c.clock t) := by
  have hturns : ∀ {s s' : State} {t : Int}, Turns w s s' → Honoured secret t0 s t →
    Honoured secret t0 s' t := by
    intro s s' t hs h
    exact hs.keeps (P := fun s => Honoured secret t0 s t) (fun _ _ h ht => ht.honoured h) h
  have hlater : ∀ t', t ≤ t' → (t0 + 900 ≤ t ∨ s.secret = secret ∨
      (s.oldsecret = secret ∧ t0 + 900 ≤ s.rotateSecretsTime)) →
      (t0 + 900 ≤ t' ∨ s.secret = secret ∨
      (s.oldsecret = secret ∧ t0 + 900 ≤ s.rotateSecretsTime)) := by
    intro t' hle h
    exact h.imp (fun h => by omega) id
  cases c with
  | init now id v =>
    rcases dhtInit_cases w s now id v with heq | ⟨hclosed, _⟩
    · rw [call, heq]
      exact ⟨h.since, Int.le_trans h.now hc, h.opened, hlater now hc h.good⟩
    · rw [h.opened] at hclosed
      simp at hclosed
  | uninit => exact absurd rfl hup
  | periodic now datagram =>
    refine hturns (turns_dhtPeriodic w s now datagram hs.table) ?_
    exact ⟨Int.le_trans h.since (Int.le_trans h.now hc), Int.le_refl _, h.opened,
      hlater now hc h.good⟩
  | search id port => exact hturns (asks_dhtSearch w s id port).turns h
  | pingNode sa => exact hturns (moves_sendPing s sa).turns h
  | insertNode id sa => exact hturns (moves_newNode w s id sa 0 hs.table).turns h

theorem honoured_run {secret : Vector UInt8 8} {t0 : Int} (calls : List Call) (hs : Sound s)
    (h : Honoured secret t0 s t) (hup : Call.uninit ∉ calls) (hsteady : Steady t calls) :
    Honoured secret t0 (run w s calls) (clock t calls) := by
  induction calls generalizing s t with
  | nil => exact h
  | cons c calls ih =>
    obtain ⟨hhead, htail⟩ := not_or.mp (List.mem_cons.not.mp hup)
    exact ih (sound_call w hs c) (honoured_call hs h c (fun heq => hhead heq.symm) hsteady.1)
      htail hsteady.2

theorem length_makeToken (w : World) (secret : Vector UInt8 8) (sa : Endpoint) :
    (makeToken w secret sa).length = tokenSize := by
  simp [makeToken, dhtHash, Sha1.sha1Final, tokenSize]

/-- A token that is handed out is good for the same address for fifteen minutes. -/
theorem run_token (w : World) (before after : List Call) (now : Int)
    (datagram : Option (Endpoint × List UInt8)) (hopen : (run w State.boot before).opened = true)
    (hsteady : Steady 0 (before ++ .periodic now datagram :: after)) (hup : Call.uninit ∉ after)
    (hsoon : clock now after < now + 900) (sa : Endpoint) :
    tokenMatch w (run w State.boot (before ++ .periodic now datagram :: after))
      (makeToken w (run w State.boot before).secret sa) sa = true := by
  obtain ⟨hbefore, hlast, hafter⟩ := steady_append.mp hsteady
  have hsound := sound_run w Sound.boot before
  have hrun : run w State.boot (before ++ .periodic now datagram :: after) =
      run w (dhtPeriodic w (run w State.boot before) now datagram) after := by
    simp [run, call]
  rw [hrun]
  generalize run w State.boot before = s at hopen hsound
  have hstart : Honoured s.secret now { s with now := now } now :=
    ⟨Int.le_refl _, Int.le_refl _, hopen, Or.inr (Or.inl rfl)⟩
  have hfirst : Honoured s.secret now (dhtPeriodic w s now datagram) now :=
    (turns_dhtPeriodic w s now datagram hsound.table).keeps
      (P := fun s1 => Honoured s.secret now s1 now)
      (fun _ _ h ht => ht.honoured h) hstart
  have hend := honoured_run (w := w) after (sound_call w hsound (.periodic now datagram))
    hfirst hup hafter
  rw [tokenMatch, if_neg (not_not.mpr (length_makeToken w s.secret sa)), Bool.or_eq_true,
    beq_iff_eq, beq_iff_eq]
  rcases hend.good with hlate | hsame | ⟨hsame, _⟩
  · omega
  · exact Or.inl (congrArg (fun secret => makeToken w secret sa) hsame)
  · exact Or.inr (congrArg (fun secret => makeToken w secret sa) hsame)

/-- A world whose secrets are all different. -/
def World.secretive : World :=
  { World.calm with randomBytes := fun n => Vector.replicate 8 (UInt8.ofNat (n + 1)) }

/-- The secret is another one in the meantime. -/
theorem run_token_first :
    (run World.secretive State.boot
      (firstCalls ++ .periodic 1700 none :: [.periodic 2500 none])).secret ≠
      (run World.secretive State.boot firstCalls).secret ∧
    tokenMatch World.secretive
      (run World.secretive State.boot (firstCalls ++ .periodic 1700 none :: [.periodic 2500 none]))
      (makeToken World.secretive (run World.secretive State.boot firstCalls).secret
      (Vector.replicate 6 5)) (Vector.replicate 6 5) = true :=
  ⟨by decide +kernel, run_token World.secretive firstCalls [.periodic 2500 none] 1700 none
    (by decide +kernel)
    (by simp [Steady, firstCalls, Call.clock]) (by simp) (by decide) (Vector.replicate 6 5)⟩

/-- Is this a request that gets past `token_bucket`? -/
def answers (s : State) : Call → Bool
  | .periodic now (some (sa, buf)) =>
    match (letIn { s with now := now } sa buf).1 with
    | some (kind, _) => kind != .reply
    | none => false
  | _ => false

/-- The number of requests that a run answers. -/
def answered (w : World) : State → List Call → Nat
  | _, [] => 0
  | s, c :: calls => (if answers s c then 1 else 0) + answered w (call w s c) calls

/-- What the bucket has, and what the next refill would put into it. -/
def credit (s : State) (t : Int) : Int :=
  s.tokenBucketTokens + min 400 (100 * (t - s.tokenBucketTime))

structure Metered (s : State) (t : Int) : Prop where
  now : s.now ≤ t
  time : s.tokenBucketTime ≤ s.now
  low : 0 ≤ s.tokenBucketTokens
  high : s.tokenBucketTokens ≤ 400

theorem tokenBucket_metered (h : Metered s s.now) : Metered (tokenBucket s).2 s.now ∧
    (if (tokenBucket s).1 then 1 else 0) + credit (tokenBucket s).2 s.now ≤ credit s s.now := by
  obtain ⟨_, htime, hlow, hhigh⟩ := h
  unfold tokenBucket maxTokenBucketTokens
  by_cases hzero : s.tokenBucketTokens = 0
  · simp only [hzero, if_true]
    split
    · next hnone =>
      refine ⟨⟨Int.le_refl _, Int.le_refl _, by simp [hnone], by simp [hnone]⟩, ?_⟩
      simp only [credit, hzero, hnone, Bool.false_eq_true, if_false]
      omega
    · next hsome =>
      dsimp only at hsome ⊢
      refine ⟨⟨Int.le_refl _, Int.le_refl _, ?_, ?_⟩, ?_⟩ <;>
        simp only [credit, if_true, hzero] <;> omega
  · simp only [hzero, if_false]
    refine ⟨⟨Int.le_refl _, htime, ?_, ?_⟩, ?_⟩ <;> simp only [credit, if_true] <;> omega

theorem Asks.bucket (h : Asks w s s') : s'.tokenBucketTime = s.tokenBucketTime ∧
    s'.tokenBucketTokens = s.tokenBucketTokens :=
  ⟨congrArg Frame.tokenBucketTime h.frame, congrArg Frame.tokenBucketTokens h.frame⟩

theorem Moves.bucket (h : Moves s s') : s'.tokenBucketTime = s.tokenBucketTime ∧
    s'.tokenBucketTokens = s.tokenBucketTokens :=
  ⟨congrArg Frame.tokenBucketTime h.frame, congrArg Frame.tokenBucketTokens h.frame⟩

theorem Hears.bucket {sa : Endpoint} {kind : Kind} {m : Message} (h : Hears w sa kind m s s') :
    s'.tokenBucketTime = s.tokenBucketTime ∧ s'.tokenBucketTokens = s.tokenBucketTokens := by
  cases h with
  | quiet _ h => exact h.bucket
  | flush s1 _ h h' => exact ⟨h'.bucket.1.trans h.bucket.1, h'.bucket.2.trans h.bucket.2⟩
  | store s1 _ _ h ha h' =>
    obtain ⟨_, heq⟩ := storageStore_frame (w := w) (s := s1) m.infoHash sa (announcedPort sa m)
    have h2 := h'.bucket
    rw [heq] at h2
    exact ⟨h2.1.trans h.bucket.1, h2.2.trans h.bucket.2⟩

theorem expireIfDue_bucket : (expireIfDue w s).tokenBucketTime = s.tokenBucketTime ∧
    (expireIfDue w s).tokenBucketTokens = s.tokenBucketTokens := by
  rcases expireIfDue_cases w s with ⟨_, heq⟩ | ⟨s1, t, _, h1, _, heq⟩ <;> rw [heq]
  · exact ⟨rfl, rfl⟩
  · exact h1.bucket

theorem dhtPeriodic_bucket (w : World) (s : State) (now : Int)
    (datagram : Option (Endpoint × List UInt8)) :
    (dhtPeriodic w s now datagram).tokenBucketTime =
      (hear w { s with now := now } datagram).tokenBucketTime ∧
      (dhtPeriodic w s now datagram).tokenBucketTokens =
        (hear w { s with now := now } datagram).tokenBucketTokens := by
  unfold dhtPeriodic
  dsimp only
  generalize hear w { s with now := now } datagram = s1
  have hrotate : (rotateIfDue w s1).tokenBucketTime = s1.tokenBucketTime ∧
      (rotateIfDue w s1).tokenBucketTokens = s1.tokenBucketTokens := by
    unfold rotateIfDue
    split <;> exact ⟨rfl, rfl⟩
  have hexpire := expireIfDue_bucket (w := w) (s := rotateIfDue w s1)
  have hlast := ((moves_searchIfDue w (expireIfDue w (rotateIfDue w s1))).trans
    (moves_confirmIfDue w _)).bucket
  exact ⟨hlast.1.trans (hexpire.1.trans hrotate.1), hlast.2.trans (hexpire.2.trans hrotate.2)⟩

/-- What a datagram costs. -/
theorem metered_hear (hgood : s.Good) (h : Metered s s.now)
    (datagram : Option (Endpoint × List UInt8)) :
    Metered (hear w s datagram) s.now ∧
      (if answers s (.periodic s.now datagram) then 1 else 0) + credit (hear w s datagram) s.now ≤
        credit s s.now := by
  cases datagram with
  | none => exact ⟨h, by simp [answers, hear]⟩
  | some p =>
    obtain ⟨sa, buf⟩ := p
    have hlet : Metered (letIn s sa buf).2 s.now ∧
        (if answers s (.periodic s.now (some (sa, buf))) then 1 else 0) + credit
          (letIn s sa buf).2 s.now ≤ credit s s.now := by
      have hfree := tokenBucket_metered h
      have hstill : Metered s s.now ∧ (0 : Int) + credit s s.now ≤ credit s s.now := ⟨h, by omega⟩
      unfold answers letIn
      dsimp only
      split
      · exact hstill
      split
      · next kind m _ =>
        split
        · exact hstill
        split
        · next hreply =>
          subst hreply
          exact hstill
        · next hrequest =>
          cases hbucket : tokenBucket s with
          | mk ok s1 =>
            rw [hbucket] at hfree
            cases ok with
            | false => exact hfree
            | true =>
              have hyes : (kind != Kind.reply) = true := by simpa using hrequest
              simp only [hyes]
              exact hfree
      · exact hstill
    have hnow : (hear w s (some (sa, buf))).now = s.now :=
      (turns_hear w s (some (sa, buf)) hgood).now.1
    have hsame : (hear w s (some (sa, buf))).tokenBucketTime = (letIn s sa buf).2.tokenBucketTime ∧
        (hear w s (some (sa, buf))).tokenBucketTokens = (letIn s sa buf).2.tokenBucketTokens := by
      rcases receive_cases w s sa buf hgood with heq | ⟨_, _, _, _, hheard⟩
      · exact ⟨by rw [hear, heq], by rw [hear, heq]⟩
      · exact hheard.bucket
    obtain ⟨⟨hn, ht, hl, hh⟩, hcost⟩ := hlet
    refine ⟨⟨by omega, by omega, by omega, by omega⟩, ?_⟩
    unfold credit at hcost ⊢
    rw [hsame.1, hsame.2]
    exact hcost

theorem metered_call (hs : Sound s) (h : Metered s t) (c : Call) (hc : t ≤ c.clock t) :
    Metered (call w s c) (c.clock t) ∧ (s.opened = true → c ≠ .uninit → (call w s c).opened = true ∧
      (if answers s c then 1 else 0) + credit (call w s c) (c.clock t) ≤
        credit s t + 100 * (c.clock t - t)) := by
  have hquiet : ∀ s' t', s'.tokenBucketTime = s.tokenBucketTime ∧
      s'.tokenBucketTokens = s.tokenBucketTokens →
      s'.now = s.now → t ≤ t' → Metered s' t' ∧ (0 : Int) + credit s' t' ≤
        credit s t + 100 * (t' - t) := by
    rintro s' t' ⟨ht, hk⟩ hn hle
    obtain ⟨h1, h2, h3, h4⟩ := h
    refine ⟨⟨by omega, by omega, by omega, by omega⟩, ?_⟩
    unfold credit
    rw [ht, hk]
    omega
  cases c with
  | init now id v =>
    rcases dhtInit_cases w s now id v with heq | ⟨hclosed, _, heq | ⟨s1, draws, r, h1, heq⟩⟩ <;>
      rw [call, heq]
    · obtain ⟨h1, h2⟩ := hquiet s now ⟨rfl, rfl⟩ rfl hc
      exact ⟨h1, fun hopen _ => ⟨hopen, h2⟩⟩
    · refine ⟨⟨Int.le_trans h.now hc, h.time, h.low, h.high⟩, fun hopen => ?_⟩
      simp [hclosed] at hopen
    · -- the bucket is full
      have hn : s1.now = now := h1.now
      have ht : s1.tokenBucketTime = now := h1.bucket.1
      have hk : s1.tokenBucketTokens = 400 := h1.bucket.2
      refine ⟨⟨Int.le_of_eq hn, Int.le_of_eq (ht.trans hn.symm), ?_, ?_⟩, fun hopen => ?_⟩
      · show 0 ≤ s1.tokenBucketTokens
        omega
      · show s1.tokenBucketTokens ≤ 400
        omega
      · simp [hclosed] at hopen
  | uninit =>
    refine ⟨?_, fun _ hup => absurd rfl hup⟩
    simp only [call, dhtUninit, Call.clock]
    split <;> exact ⟨h.now, h.time, h.low, h.high⟩
  | periodic now datagram =>
    have hlater : Metered { s with now := now } now :=
      ⟨Int.le_refl _, Int.le_trans h.time (Int.le_trans h.now hc), h.low, h.high⟩
    obtain ⟨hmet, hcost⟩ := metered_hear (w := w) (s := { s with now := now }) hs.table
      hlater datagram
    obtain ⟨htime, htokens⟩ := dhtPeriodic_bucket w s now datagram
    obtain ⟨hnow, hopen'⟩ := (turns_dhtPeriodic w s now datagram hs.table).now
    obtain ⟨hn1, _⟩ := (turns_hear w { s with now := now } datagram hs.table).now
    obtain ⟨h1, h2, h3, h4⟩ := hmet
    simp only [call, Call.clock] at hc ⊢
    dsimp only at hnow hopen' hn1
    refine ⟨⟨by omega, by omega, by omega, by omega⟩, fun hopen _ => ⟨hopen'.trans hopen, ?_⟩⟩
    have hsame : answers { s with now := now } (.periodic now datagram) =
      answers s (.periodic now datagram) := rfl
    rw [hsame] at hcost
    unfold credit at hcost ⊢
    rw [htime, htokens]
    dsimp only at hcost
    omega
  | search id port =>
    have ha := asks_dhtSearch w s id port
    obtain ⟨h1, h2⟩ := hquiet _ t ha.bucket (congrArg Frame.now ha.frame) hc
    exact ⟨h1, fun hopen _ => ⟨(congrArg Frame.opened ha.frame).trans hopen, h2⟩⟩
  | pingNode sa =>
    obtain ⟨h1, h2⟩ := hquiet _ t (moves_sendPing s sa).bucket (moves_sendPing s sa).now hc
    exact ⟨h1, fun hopen _ => ⟨(moves_sendPing s sa).opened.trans hopen, h2⟩⟩
  | insertNode id sa =>
    have hm := moves_newNode w s id sa 0 hs.table
    obtain ⟨h1, h2⟩ := hquiet _ t hm.bucket hm.now hc
    exact ⟨h1, fun hopen _ => ⟨hm.opened.trans hopen, h2⟩⟩

theorem answered_le (calls : List Call) (hs : Sound s) (hopen : s.opened = true) (h : Metered s t)
    (hup : Call.uninit ∉ calls) (hsteady : Steady t calls) :
    (answered w s calls : Int) ≤ credit s t + 100 * (clock t calls - t) := by
  induction calls generalizing s t with
  | nil =>
    obtain ⟨h1, h2, h3, h4⟩ := h
    simp only [answered, clock, List.foldl_nil, credit]
    push_cast
    omega
  | cons c calls ih =>
    obtain ⟨hhead, htail⟩ := not_or.mp (List.mem_cons.not.mp hup)
    obtain ⟨hmet, hnext⟩ := metered_call (w := w) hs h c hsteady.1
    obtain ⟨hopen', hcost⟩ := hnext hopen (fun heq => hhead heq.symm)
    have hrest := ih (sound_call w hs c) hopen' hmet htail hsteady.2
    have hclock : clock t (c :: calls) = clock (c.clock t) calls := rfl
    rw [hclock, answered]
    push_cast
    omega

/-- In any stretch of a run no more than 800 requests are answered, and 100 more for each second. -/
theorem run_rate (w : World) (before after : List Call)
    (hopen : (run w State.boot before).opened = true)
    (hsteady : Steady 0 (before ++ after)) (hup : Call.uninit ∉ after) :
    (answered w (run w State.boot before) after : Int) ≤
      800 + 100 * (clock 0 (before ++ after) - clock 0 before) := by
  obtain ⟨hbefore, hafter⟩ := steady_append.mp hsteady
  have hboot : Metered State.boot 0 := ⟨Int.le_refl _, Int.le_refl _, Int.le_refl _, by decide⟩
  have hmet := run_steady (w := w) (P := Metered) (fun s t c hs hp hc =>
    (metered_call hs hp c hc).1) before Sound.boot hboot hbefore
  have hle := answered_le (w := w) after (sound_run w Sound.boot before) hopen hmet hup hafter
  have hclock : clock 0 (before ++ after) = clock (clock 0 before) after := by simp [clock]
  obtain ⟨h1, h2, h3, h4⟩ := hmet
  unfold credit at hle
  rw [hclock]
  omega

/-- One request comes and is answered. -/
theorem run_rate_first :
    answered World.calm (run World.calm State.boot firstCalls)
    [.periodic 1700 (some firstAnnounce)] = 1 ∧
    (answered World.calm (run World.calm State.boot firstCalls)
      [.periodic 1700 (some firstAnnounce)] : Int) ≤
      800 + 100 * (clock 0 (firstCalls ++ [.periodic 1700 (some firstAnnounce)]) - clock 0
        firstCalls) :=
  ⟨by decide +kernel, run_rate World.calm firstCalls [.periodic 1700 (some firstAnnounce)]
    (by decide +kernel) (by simp [Steady, firstCalls, Call.clock]) (by simp)⟩

end Dht
