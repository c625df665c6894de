import Nginx.Upstream.Selection

namespace Nginx.RoundRobin

section Bitmap

theorem tested_isSome (tried : List (BitVec 64)) (i : Nat) :
    (tested tried i).isSome = true ↔ i / 64 < tried.length := by
  simp [tested]

theorem length_mark (tried : List (BitVec 64)) (c : Nat) : (mark tried c).length = tried.length := by
  simp [mark]

theorem tested_mark_of_tested (tried : List (BitVec 64)) (c i : Nat) (h : tested tried i = some true) :
    tested (mark tried c) i = some true := by
  obtain ⟨w, hw, hbit⟩ := Option.map_eq_some_iff.mp h
  simp only [tested, mark, List.getElem?_modify, hw]
  split <;> simp [hbit]

theorem tested_mark_self (tried : List (BitVec 64)) (c : Nat) (h : c / 64 < tried.length) :
    tested (mark tried c) c = some true := by
  have hmod : c % 64 < 64 := Nat.mod_lt _ (by decide)
  simp [tested, mark, List.getElem?_eq_getElem h, hmod]

end Bitmap

section Loops

variable (now : Int)

-- The part of a list that never changes while requests are served.
def shape (peers : Peers) : Nat × Bool × Nat := (peers.peer.length, peers.single, peers.lastCached)

-- What the loops never undo: set bits stay set, and nothing changes its size.
structure Keeps (s s' : Conn) : Prop where
  tried : ∀ i, tested s.tried i = some true → tested s'.tried i = some true
  words : s'.tried.length = s.tried.length
  shape : shape s'.peers = shape s.peers

theorem Keeps.refl (s : Conn) : Keeps s s := ⟨fun _ h => h, rfl, rfl⟩

theorem Keeps.trans {s t u : Conn} (h : Keeps s t) (h' : Keeps t u) : Keeps s u where
  tried i hi := h'.tried i (h.tried i hi)
  words := h'.words.trans h.words
  shape := h'.shape.trans h.shape

-- A round that goes on, and one that breaks at a peer that is available and was not tried.
structure Passes (s s' : Conn) : Prop extends Keeps s s' where
  available : s'.peers.peer.map (available now) = s.peers.peer.map (available now)

structure Breaks (s s' : Conn) : Prop extends Keeps s s' where
  available : (s.peers.peer.map (available now))[s'.current]? = some true
  untried : tested s.tried s'.current = some false

def Outcome (s : Conn) (out : Bool × Conn) : Prop :=
  if out.1 then Breaks now s out.2 else Passes now s out.2

theorem Passes.refl (s : Conn) : Passes now s s := ⟨Keeps.refl s, rfl⟩

theorem Passes.outcome {s t : Conn} {out : Bool × Conn} (h : Passes now s t)
    (ho : Outcome now t out) : Outcome now s out := by
  obtain ⟨found, u⟩ := out
  cases found with
  | false =>
      have hp : Passes now t u := ho
      exact ⟨h.toKeeps.trans hp.toKeeps, hp.available.trans h.available⟩
  | true =>
      have hb : Breaks now t u := ho
      refine ⟨h.toKeeps.trans hb.toKeeps, h.available ▸ hb.available, ?_⟩
      have hsome : (tested s.tried u.current).isSome = true := by
        rw [tested_isSome, ← h.words, ← tested_isSome, hb.untried]
        rfl
      obtain ⟨b, hbit⟩ := Option.isSome_iff_exists.mp hsome
      cases b with
      | false => exact hbit
      | true =>
          have := h.tried _ hbit
          rw [hb.untried] at this
          cases this

theorem inspect_outcome (s : Conn) (out : Bool × Conn) (h : inspect now s = some out) :
    Outcome now s out := by
  unfold inspect at h
  obtain ⟨bit, hbit, h⟩ := Option.bind_eq_some_iff.mp h
  cases bit with
  | true =>
      obtain rfl := Option.some.inj h
      exact Passes.refl now s
  | false =>
      obtain ⟨p, hp, h⟩ := Option.bind_eq_some_iff.mp h
      by_cases hd : p.down = true
      · simp only [hd, if_true] at h
        obtain rfl := Option.some.inj h
        exact ⟨⟨fun i hi => tested_mark_of_tested _ _ i hi, length_mark _ _, rfl⟩, rfl⟩
      · by_cases ho : inOrder p = true
        · simp only [hd, ho, if_true] at h
          obtain rfl := Option.some.inj h
          exact ⟨Keeps.refl s, by simp [hp, RoundRobin.available, hd, ho], hbit⟩
        · by_cases hr : recovered now p = true
          · simp only [hd, ho, hr, if_true] at h
            obtain rfl := Option.some.inj h
            exact ⟨⟨fun _ h => h, rfl, by simp [RoundRobin.shape]⟩,
              by simp [hp, RoundRobin.available, hd, ho, hr], hbit⟩
          · simp only [hd, ho, hr] at h
            obtain rfl := Option.some.inj h
            exact ⟨⟨fun _ h => h, rfl, by simp [RoundRobin.shape]⟩, map_available_zero now _ _⟩

theorem getPeer_available (l : List Peer) :
    (getPeer l).2.map (available now) = l.map (available now) ∧ (getPeer l).2.length = l.length := by
  unfold getPeer
  split
  · exact ⟨rfl, rfl⟩
  · exact ⟨map_available_reset now l, by simp [reset]⟩

theorem firstTry_outcome (i : Nat) (s : Conn) (out : Bool × Conn) (h : firstTry now i s = some out) :
    Outcome now s out := by
  induction i generalizing s with
  | zero =>
      obtain rfl := Option.some.inj h
      exact Passes.refl now s
  | succ i ih =>
      have hget := getPeer_available now s.peers.peer
      have hstart : Passes now s
          { s with current := (getPeer s.peers.peer).1,
                   peers := { s.peers with peer := (getPeer s.peers.peer).2 } } :=
        ⟨⟨fun _ h => h, rfl, by simp [RoundRobin.shape, hget.2]⟩, hget.1⟩
      obtain ⟨⟨found, t⟩, hin, hrest⟩ := Option.bind_eq_some_iff.mp h
      have hround := hstart.outcome now (inspect_outcome now _ _ hin)
      cases found with
      | true =>
          obtain rfl := Option.some.inj hrest
          exact hround
      | false =>
          have hpass : Passes now s t := hround
          simp only [Bool.false_eq_true, if_false] at hrest
          split at hrest
          · obtain rfl := Option.some.inj hrest
            exact hround
          · exact hpass.outcome now (ih t hrest)

theorem nextTry_outcome (i : Nat) (s : Conn) (out : Bool × Conn) (h : nextTry now i s = some out) :
    Outcome now s out := by
  induction i generalizing s with
  | zero =>
      obtain rfl := Option.some.inj h
      exact Passes.refl now s
  | succ i ih =>
      obtain ⟨⟨found, t⟩, hin, hrest⟩ := Option.bind_eq_some_iff.mp h
      have hround := inspect_outcome now _ _ hin
      cases found with
      | true =>
          obtain rfl := Option.some.inj hrest
          exact hround
      | false =>
          have hpass : Passes now s t := hround
          have hadv : Passes now s (advance t) := ⟨⟨hpass.tried, hpass.words, hpass.shape⟩, hpass.available⟩
          simp only [Bool.false_eq_true, if_false] at hrest
          split at hrest
          · obtain rfl := Option.some.inj hrest
            exact hadv
          · exact hadv.outcome now (ih _ hrest)

-- The peer handed out was available and not tried, and its bit is set afterwards.
structure Takes (s s' : Conn) : Prop extends Breaks now s s' where
  taken : tested s'.tried s'.current = some true

theorem select_outcome (s s' : Conn) (found : Bool) (hsingle : s.peers.single = false)
    (h : select now s = some (found, s')) :
    if found then Takes now s s' else Keeps s s' := by
  have hloop : ∃ out, Outcome now s out ∧
      (if out.1 then (take out.2).map (true, ·) else some (false, out.2)) = some (found, s') := by
    simp only [select, hsingle, Bool.false_eq_true, if_false] at h
    obtain ⟨⟨b, t⟩, hrun, hrest⟩ := Option.bind_eq_some_iff.mp h
    refine ⟨(b, t), ?_, ?_⟩
    · split at hrun
      · exact firstTry_outcome now _ _ _ hrun
      · exact nextTry_outcome now _ _ _ hrun
    · cases b <;> cases htake : take t <;> simp_all
  obtain ⟨⟨b, t⟩, hout, hrest⟩ := hloop
  cases b with
  | false =>
      simp only [Bool.false_eq_true, if_false, Option.some.injEq, Prod.mk.injEq] at hrest
      obtain ⟨rfl, rfl⟩ := hrest
      have hpass : Passes now s t := hout
      exact hpass.toKeeps
  | true =>
      have hbreak : Breaks now s t := hout
      obtain ⟨u, htake, heq⟩ := Option.map_eq_some_iff.mp hrest
      simp only [Prod.mk.injEq] at heq
      obtain ⟨rfl, rfl⟩ := heq
      obtain ⟨p, -, hu⟩ := Option.bind_eq_some_iff.mp htake
      obtain rfl := Option.some.inj hu
      have hword : t.current / 64 < t.tried.length := by
        rw [hbreak.words, ← tested_isSome, hbreak.untried]
        rfl
      refine ⟨⟨hbreak.toKeeps.trans ⟨?_, length_mark _ _, by simp [RoundRobin.shape]⟩,
        hbreak.available, hbreak.untried⟩, tested_mark_self _ _ hword⟩
      exact fun i hi => tested_mark_of_tested _ _ i hi

end Loops

section Calls

-- The lists as init_round_robin builds them: a backup list is never single, and a single primary
-- has none.
structure Lists (primary : Peers) (backup : Option Peers) : Prop where
  cached : primary.lastCached = 0
  plain : ∀ b ∈ backup, b.lastCached = 0 ∧ b.single = false
  alone : primary.single = true → backup = none

def shapes (r : Request) : (Nat × Bool × Nat) × Option (Nat × Bool × Nat) :=
  (shape r.primary, r.backup.map shape)

theorem lists_of_shapes {r r' : Request} (h : shapes r' = shapes r) (hl : Lists r.primary r.backup) :
    Lists r'.primary r'.backup := by
  obtain ⟨p, b, _, _, _, _⟩ := r
  obtain ⟨p', b', _, _, _, _⟩ := r'
  simp only [shapes, shape, Prod.mk.injEq] at h
  obtain ⟨⟨-, hsingle, hcached⟩, hb⟩ := h
  refine ⟨hcached.trans hl.cached, ?_, ?_⟩
  · intro c hc
    obtain rfl := Option.mem_def.mp hc
    obtain ⟨d, hd, hshape⟩ := Option.map_eq_some_iff.mp hb.symm
    have := hl.plain d hd
    simp only [shape, Prod.mk.injEq] at hshape
    exact ⟨hshape.2.2 ▸ this.1, hshape.2.1 ▸ this.2⟩
  · intro h1
    have hnone := hl.alone (hsingle ▸ h1)
    simp only at hnone
    subst hnone
    simpa using hb

variable (now : Int)

-- The list and the index of the peer that a call with NGX_OK hands out.
def chosen (r : Request) : Bool × Nat :=
  if r.onBackup then (true, r.current) else (false, if r.primary.single then 0 else r.current)

-- The ways a call ends with NGX_OK.
inductive Handout (r r' : Request) : Prop where
  | single (hs : r.primary.single = true) (hon : r'.onBackup = false)
      (hlt : 0 < r.primary.peer.length)
  | primary (hs : r.primary.single = false) (hoff : r.onBackup = false) (hon : r'.onBackup = false)
      (available : (r.primary.peer.map (available now))[r'.current]? = some true)
      (untried : tested r.tried r'.current = some false)
      (bits : r.backup = none → tested r'.tried r'.current = some true ∧
        ∀ i, tested r.tried i = some true → tested r'.tried i = some true)
  | moved (hoff : r.onBackup = false) (hon : r'.onBackup = true) (hsome : r.backup.isSome = true)
      (hlt : ∀ b ∈ r.backup, r'.current < b.peer.length)
      (taken : tested r'.tried r'.current = some true)
  | backup (hoff : r.onBackup = true) (hon : r'.onBackup = true) (hsome : r.backup.isSome = true)
      (hlt : ∀ b ∈ r.backup, r'.current < b.peer.length)
      (untried : tested r.tried r'.current = some false)
      (taken : tested r'.tried r'.current = some true)
      (bits : ∀ i, tested r.tried i = some true → tested r'.tried i = some true)

theorem forgive_shape (peers : Peers) : shape (forgive peers) = shape peers := by
  simp [shape, forgive]

theorem available_lt {l : List Peer} {c : Nat} (h : (l.map (available now))[c]? = some true) :
    c < l.length := by
  obtain ⟨p, hp, -⟩ := (getElem?_available now l c).mpr h
  exact (List.getElem?_eq_some_iff.mp hp).1

theorem attempt_none (s : Conn) : attempt now none s = select now s := by
  unfold attempt
  cases select now s with
  | none => rfl
  | some out =>
      obtain ⟨found, t⟩ := out
      cases found <;> rfl

-- On the backup list every call either marks a new peer or gives up.
theorem getBackup_spec (b : Peers) (r : Request) (hb : r.backup = some b) (hon : r.onBackup = true)
    (hcached : b.lastCached = 0) (hsingle : b.single = false) (rc : Rc) (r' : Request)
    (h : getBackup now b r = some (rc, r')) :
    shapes r' = shapes r ∧ r'.onBackup = true ∧ (rc = .busy ∨ rc = .ok ∧
      r'.current < b.peer.length ∧ tested r.tried r'.current = some false ∧
      tested r'.tried r'.current = some true ∧
      ∀ i, tested r.tried i = some true → tested r'.tried i = some true) := by
  simp only [getBackup, hcached, attempt_none] at h
  obtain ⟨⟨found, s⟩, hsel, hrest⟩ := Option.bind_eq_some_iff.mp h
  have hout := select_outcome now _ _ _ hsingle hsel
  cases found with
  | false =>
      have hk : Keeps ⟨b, r.current, r.tried, r.tries⟩ s := hout
      simp only [Bool.false_eq_true, if_false] at hrest
      obtain ⟨rfl, rfl⟩ := Prod.mk.inj (Option.some.inj hrest)
      refine ⟨?_, hon, .inl rfl⟩
      simp [shapes, Request.store, hon, hb, forgive_shape, hk.shape]
  | true =>
      have ht : Takes now ⟨b, r.current, r.tried, r.tries⟩ s := hout
      simp only [if_true] at hrest
      obtain ⟨rfl, rfl⟩ := Prod.mk.inj (Option.some.inj hrest)
      exact ⟨by simp [shapes, Request.store, hon, hb, ht.shape], hon, .inr ⟨rfl,
        available_lt now ht.available, ht.untried, ht.taken, ht.tried⟩⟩

-- What attempt adds to select: the bitmap may have been cleared, but only with a next list.
theorem attempt_spec (next : Option Peers) (s s' : Conn) (found : Bool)
    (h : attempt now next s = some (found, s')) :
    ∃ t, select now s = some (found, t) ∧ s'.peers = t.peers ∧ s'.current = t.current ∧
      (next = none → s' = t) := by
  obtain ⟨⟨b, t⟩, hsel, hrest⟩ := Option.bind_eq_some_iff.mp h
  cases b with
  | false =>
      simp only [Bool.false_eq_true, if_false, Option.pure_def, Option.some.injEq, Prod.mk.injEq] at hrest
      obtain ⟨rfl, rfl⟩ := hrest
      exact ⟨t, hsel, rfl, rfl, fun _ => rfl⟩
  | true =>
      cases next with
      | none =>
          simp only [if_true, Option.pure_def, Option.some.injEq, Prod.mk.injEq] at hrest
          obtain ⟨rfl, rfl⟩ := hrest
          exact ⟨t, hsel, rfl, rfl, fun _ => rfl⟩
      | some next =>
          simp only [if_true] at hrest
          split at hrest
          · obtain ⟨tried, -, hrest⟩ := Option.bind_eq_some_iff.mp hrest
            obtain ⟨rfl, rfl⟩ := Prod.mk.inj (Option.some.inj hrest)
            exact ⟨t, hsel, rfl, rfl, by simp⟩
          · obtain ⟨rfl, rfl⟩ := Prod.mk.inj (Option.some.inj hrest)
            exact ⟨t, hsel, rfl, rfl, by simp⟩

theorem select_single (s s' : Conn) (found : Bool) (hsingle : s.peers.single = true)
    (h : select now s = some (found, s')) :
    found = true ∧ s' = s ∧ 0 < s.peers.peer.length := by
  simp only [select, hsingle, if_true] at h
  obtain ⟨p, hp, hrest⟩ := Option.bind_eq_some_iff.mp h
  obtain ⟨rfl, rfl⟩ := Prod.mk.inj (Option.some.inj hrest)
  exact ⟨rfl, rfl, (List.getElem?_eq_some_iff.mp hp).1⟩

theorem get_spec (r r' : Request) (rc : Rc) (hl : Lists r.primary r.backup)
    (h : getRoundRobinPeer now r = some (rc, r')) :
    shapes r' = shapes r ∧ (rc = .busy ∨ rc = .ok ∧ Handout now r r') := by
  by_cases hon : r.onBackup = true
  · simp only [getRoundRobinPeer, hon, if_true] at h
    obtain ⟨b, hb, h⟩ := Option.bind_eq_some_iff.mp h
    obtain ⟨hcached, hsingle⟩ := hl.plain b hb
    obtain ⟨hshape, hon', hrc⟩ := getBackup_spec now b r hb hon hcached hsingle rc r' h
    refine ⟨hshape, hrc.imp id ?_⟩
    rintro ⟨hok, hlt, hfree, htaken, hbits⟩
    refine ⟨hok, ?_⟩
    exact .backup hon hon' (by simp [hb]) (fun c hc => by rw [hb] at hc; exact Option.some.inj hc ▸ hlt) hfree htaken hbits
  · have hoff : r.onBackup = false := by simpa using hon
    simp only [getRoundRobinPeer, hoff, hl.cached, Bool.false_eq_true, if_false, ne_eq, not_true] at h
    obtain ⟨⟨found, s⟩, hatt, h⟩ := Option.bind_eq_some_iff.mp h
    obtain ⟨t, hsel, hpeers, hcur, hsame⟩ := attempt_spec now _ _ _ _ hatt
    have hstore : ∀ (hs : shape s.peers = shape r.primary), shapes (r.store s) = shapes r := by
      intro hs
      simp [shapes, Request.store, hoff, hs]
    cases hsingle : r.primary.single with
    | true =>
        obtain ⟨rfl, rfl, hlt⟩ := select_single now _ _ _ hsingle hsel
        simp only [if_true] at h
        obtain ⟨rfl, rfl⟩ := Prod.mk.inj (Option.some.inj h)
        exact ⟨hstore (congrArg shape hpeers), .inr ⟨rfl, .single hsingle hoff hlt⟩⟩
    | false =>
        have hout := select_outcome now _ _ _ hsingle hsel
        cases found with
        | true =>
            have ht : Takes now ⟨r.primary, r.current, r.tried, r.tries⟩ t := hout
            simp only [if_true] at h
            obtain ⟨rfl, rfl⟩ := Prod.mk.inj (Option.some.inj h)
            refine ⟨hstore (hpeers ▸ ht.shape), .inr ⟨rfl, .primary hsingle hoff hoff ?_ ?_ ?_⟩⟩
            · simpa [Request.store, hcur] using ht.available
            · simpa [Request.store, hcur] using ht.untried
            · intro hnone
              obtain rfl := hsame hnone
              exact ⟨ht.taken, ht.tried⟩
        | false =>
            have hk : Keeps ⟨r.primary, r.current, r.tried, r.tries⟩ t := hout
            have hs := hstore (hpeers ▸ hk.shape)
            simp only [Bool.false_eq_true, if_false, Request.store, hoff] at h
            cases hb : r.backup with
            | none =>
                simp only [hb] at h
                obtain ⟨rfl, rfl⟩ := Prod.mk.inj (Option.some.inj h)
                refine ⟨?_, .inl rfl⟩
                simp [shapes, forgive_shape, hb, hpeers, hk.shape]
            | some b =>
                simp only [hb] at h
                obtain ⟨tried, -, h⟩ := Option.bind_eq_some_iff.mp h
                obtain ⟨⟨rc₂, r₂⟩, hget, h⟩ := Option.bind_eq_some_iff.mp h
                obtain ⟨hcached, hplain⟩ := hl.plain b hb
                obtain ⟨hshape, hon', hrc⟩ := getBackup_spec now b _ rfl rfl hcached hplain rc₂ r₂ hget
                have hshapes : shapes r₂ = shapes r := by
                  rw [hshape, ← hs]
                  simp [shapes, Request.store, hoff, hb]
                rcases hrc with rfl | ⟨rfl, hlt, -, htaken, -⟩
                · simp only [if_true] at h
                  obtain ⟨rfl, rfl⟩ := Prod.mk.inj (Option.some.inj h)
                  refine ⟨?_, .inl rfl⟩
                  simp only [shapes, forgive_shape]
                  exact hshapes
                · simp only [reduceCtorEq, if_false] at h
                  obtain ⟨rfl, rfl⟩ := Prod.mk.inj (Option.some.inj h)
                  exact ⟨hshapes, .inr ⟨rfl, .moved hoff hon' (by simp [hb])
                    (fun c hc => by rw [hb] at hc; exact Option.some.inj hc ▸ hlt) htaken⟩⟩

-- Handing a peer back keeps the lists, the bitmap and rrp->peers, and ends a single list.
theorem free_spec (fail zero : Bool) (r r' : Request)
    (h : freeRoundRobinPeer now fail zero r = some r') :
    shapes r' = shapes r ∧ r'.onBackup = r.onBackup ∧ r'.tried = r.tried ∧
      (r.onBackup = false → r.primary.single = true → r'.tries = 0) := by
  unfold freeRoundRobinPeer at h
  split at h
  · rename_i hzero
    obtain rfl := Option.some.inj h
    exact ⟨rfl, rfl, rfl, fun _ _ => hzero.2⟩
  · obtain ⟨peers, hp, h⟩ := Option.bind_eq_some_iff.mp h
    split at h
    · obtain rfl := Option.some.inj h
      exact ⟨rfl, rfl, rfl, fun _ _ => rfl⟩
    · rename_i hsingle
      obtain ⟨peer, hpeer, h⟩ := Option.bind_eq_some_iff.mp h
      have hlen : peer.length = peers.peer.length := by
        unfold account at hpeer
        split at hpeer
        · obtain ⟨p, -, rfl⟩ := Option.map_eq_some_iff.mp hpeer
          rw [List.length_modify]
        · rw [Option.some.inj hpeer]
      obtain rfl := Option.some.inj h
      by_cases hon : r.onBackup = true
      · have hb : r.backup = some peers := by simpa [Request.peers, hon] using hp
        refine ⟨?_, rfl, rfl, fun hoff => ?_⟩
        · simp [shapes, shape, Request.store, advance, hon, hb, hlen]
        · exact absurd (hoff.symm.trans hon) (by decide)
      · have hprimary : r.primary = peers := by simpa [Request.peers, hon] using hp
        refine ⟨?_, rfl, rfl, fun _ hs => ?_⟩
        · simp [shapes, shape, Request.store, advance, hon, hprimary, hlen]
        · exact absurd (hprimary ▸ hs) hsingle

end Calls

section Runs

-- Other requests may have changed the peers of both lists in the meantime, not this request.
structure Elsewhere (r r' : Request) : Prop where
  shapes : shapes r' = shapes r
  onBackup : r'.onBackup = r.onBackup
  current : r'.current = r.current
  tried : r'.tried = r.tried
  tries : r'.tries = r.tries

variable (ok : Int → List (Bool × Nat) → Request → Prop) (primary : Peers) (backup : Option Peers)

-- The run of one request: get and free with NGX_PEER_FAILED in turn until NGX_BUSY or no try is
-- left, with what get handed out and whether free is due. Every get meets the condition ok.
inductive Run : List (Bool × Nat) → Bool → Request → Prop where
  | start : Run [] false (initRoundRobinPeer primary backup)
  | elsewhere {handed due r r'} : Run handed due r → Elsewhere r r' → Run handed due r'
  | get {handed now r rc r'} : Run handed false r → (handed = [] ∨ r.tries ≠ 0) → ok now handed r →
      getRoundRobinPeer now r = some (rc, r') → rc ≠ .busy → Run (handed ++ [chosen r']) true r'
  | free {handed now r r'} : Run handed true r → freeRoundRobinPeer now true false r = some r' →
      Run handed false r'

-- While a request with a backup list is still on the primary list, no peer handed out before is
-- available with its bit cleared.
def Undisturbed (now : Int) (handed : List (Bool × Nat)) (r : Request) : Prop :=
  r.backup.isSome = true → r.onBackup = false → ∀ i, (false, i) ∈ handed →
    (r.primary.peer.map (available now))[i]? = some true → tested r.tried i = some true

-- A list and an index of the upstream block.
def InLists (x : Bool × Nat) : Prop :=
  if x.1 then ∀ b ∈ backup, x.2 < b.peer.length else x.2 < primary.peer.length

structure Inv (handed : List (Bool × Nat)) (due : Bool) (r : Request) : Prop where
  shapes : shapes r = (shape primary, backup.map shape)
  nodup : handed.Nodup
  inLists : ∀ x ∈ handed, InLists primary backup x ∧ (x.1 = true → backup.isSome = true)
  onPrimary : r.onBackup = false → ∀ x ∈ handed, x.1 = false
  onBackup : r.onBackup = true → backup.isSome = true
  bits : ∀ i, (true, i) ∈ handed → tested r.tried i = some true
  noBackup : backup = none → primary.single = false → ∀ x ∈ handed, tested r.tried x.2 = some true
  single : primary.single = true → handed.length ≤ 1 ∧ (due = false → handed = [] ∨ r.tries = 0)

theorem inv_start : Inv primary backup [] false (initRoundRobinPeer primary backup) where
  shapes := rfl
  nodup := List.nodup_nil
  inLists := by simp
  onPrimary := by simp
  onBackup := by simp [initRoundRobinPeer]
  bits := by simp
  noBackup := by simp
  single := by simp

variable {primary backup}

theorem Inv.lists {handed : List (Bool × Nat)} {due : Bool} {r : Request}
    (hi : Inv primary backup handed due r) (hl : Lists primary backup) : Lists r.primary r.backup :=
  lists_of_shapes (r := initRoundRobinPeer primary backup) hi.shapes hl

theorem Inv.primary_eq {handed : List (Bool × Nat)} {due : Bool} {r : Request}
    (hi : Inv primary backup handed due r) :
    r.primary.single = primary.single ∧ r.primary.peer.length = primary.peer.length := by
  have h := congrArg Prod.fst hi.shapes
  simp only [RoundRobin.shapes, shape, Prod.mk.injEq] at h
  exact ⟨h.2.1, h.1⟩

theorem Inv.isSome_eq {handed : List (Bool × Nat)} {due : Bool} {r : Request}
    (hi : Inv primary backup handed due r) : r.backup.isSome = backup.isSome := by
  have h := congrArg (fun x => x.2.isSome) hi.shapes
  simpa [RoundRobin.shapes] using h

theorem Inv.backup_length {handed : List (Bool × Nat)} {due : Bool} {r : Request}
    (hi : Inv primary backup handed due r) (n : Nat) (h : ∀ b ∈ r.backup, n < b.peer.length) :
    ∀ b ∈ backup, n < b.peer.length := by
  intro b hb
  have hshape := congrArg Prod.snd hi.shapes
  rw [Option.mem_def.mp hb] at hshape
  obtain ⟨c, hc, heq⟩ := Option.map_eq_some_iff.mp hshape
  have := h c hc
  simp only [shape, Prod.mk.injEq] at heq
  omega

theorem inv_elsewhere {handed : List (Bool × Nat)} {due : Bool} {r r' : Request}
    (hi : Inv primary backup handed due r) (h : Elsewhere r r') : Inv primary backup handed due r' where
  shapes := h.shapes.trans hi.shapes
  nodup := hi.nodup
  inLists := hi.inLists
  onPrimary := h.onBackup ▸ hi.onPrimary
  onBackup := h.onBackup ▸ hi.onBackup
  bits := h.tried ▸ hi.bits
  noBackup := h.tried ▸ hi.noBackup
  single := h.tries ▸ hi.single

theorem inv_free {handed : List (Bool × Nat)} {r r' : Request} (now : Int)
    (hi : Inv primary backup handed true r) (hl : Lists primary backup)
    (h : freeRoundRobinPeer now true false r = some r') : Inv primary backup handed false r' := by
  obtain ⟨hshapes, hon, htried, hsingle⟩ := free_spec now true false r r' h
  refine ⟨hshapes.trans hi.shapes, hi.nodup, hi.inLists, hon ▸ hi.onPrimary, hon ▸ hi.onBackup,
    htried ▸ hi.bits, htried ▸ hi.noBackup, fun hs => ⟨(hi.single hs).1, fun _ => .inr ?_⟩⟩
  apply hsingle
  · cases honb : r.onBackup with
    | false => rfl
    | true => simp [hl.alone hs] at hi; exact absurd (hi.onBackup honb) (by simp)
  · exact hi.primary_eq.1.trans hs

-- A new peer x whose list rrp->peers points to afterwards, marked where it has to be.
theorem inv_append {handed : List (Bool × Nat)} {r r' : Request} (hi : Inv primary backup handed false r)
    (hshapes : shapes r' = (shape primary, backup.map shape)) (hns : primary.single = false)
    (x : Bool × Nat) (hnew : x ∉ handed) (hin : InLists primary backup x) (hon : r'.onBackup = x.1)
    (hoff : x.1 = false → r.onBackup = false) (hsome : x.1 = true → backup.isSome = true)
    (hmarked : x.1 = true ∨ backup = none → tested r'.tried x.2 = some true ∧
      ∀ y ∈ handed, y.1 = x.1 → tested r'.tried y.2 = some true) :
    Inv primary backup (handed ++ [x]) true r' := by
  have hold : x.1 = false → ∀ y ∈ handed, y.1 = false := fun hx => hi.onPrimary (hoff hx)
  refine ⟨hshapes, ?_, ?_, ?_, hon ▸ hsome, ?_, ?_, fun hs => absurd (hns.symm.trans hs) (by decide)⟩
  · rw [List.nodup_append]
    refine ⟨hi.nodup, by simp, fun y hy z hz heq => hnew ?_⟩
    rwa [← List.mem_singleton.mp hz, ← heq]
  · intro y hy
    rcases List.mem_append.mp hy with hy | hy
    · exact hi.inLists y hy
    · obtain rfl := List.mem_singleton.mp hy
      exact ⟨hin, hsome⟩
  · intro hoff' y hy
    have hx : x.1 = false := hon.symm.trans hoff'
    rcases List.mem_append.mp hy with hy | hy
    · exact hold hx y hy
    · exact List.mem_singleton.mp hy ▸ hx
  · intro i hmem
    rcases List.mem_append.mp hmem with hy | hy
    · cases hx : x.1 with
      | false =>
          have := hold hx _ hy
          cases this
      | true => exact (hmarked (.inl hx)).2 _ hy hx.symm
    · obtain rfl := List.mem_singleton.mp hy
      exact (hmarked (.inl rfl)).1
  · intro hnone _ y hy
    have hx : x.1 = false := by
      cases hx : x.1 with
      | false => rfl
      | true => simpa [hnone] using hsome hx
    rcases List.mem_append.mp hy with hy | hy
    · exact (hmarked (.inr hnone)).2 y hy ((hold hx y hy).trans hx.symm)
    · exact List.mem_singleton.mp hy ▸ (hmarked (.inr hnone)).1

-- Each way of handing out a peer gives one that was not handed out before.
theorem inv_get {handed : List (Bool × Nat)} {now : Int} {r r' : Request} {rc : Rc}
    (hi : Inv primary backup handed false r) (hl : Lists primary backup)
    (hgo : handed = [] ∨ r.tries ≠ 0) (hok : Undisturbed now handed r)
    (h : getRoundRobinPeer now r = some (rc, r')) (hrc : rc ≠ .busy) :
    Inv primary backup (handed ++ [chosen r']) true r' := by
  obtain ⟨hshapes, hspec⟩ := get_spec now r r' rc (hi.lists hl) h
  obtain ⟨-, hout⟩ := hspec.resolve_left hrc
  have hshapes' := hshapes.trans hi.shapes
  obtain ⟨hsing, hlen⟩ := hi.primary_eq
  have hsing' : r'.primary.single = primary.single := by
    have h := congrArg Prod.fst hshapes'
    simp only [RoundRobin.shapes, shape, Prod.mk.injEq] at h
    exact h.2.1
  have hplain : r.backup.isSome = true → primary.single = false := by
    intro hsome
    cases hs : primary.single with
    | false => rfl
    | true => simp [hi.isSome_eq, hl.alone hs] at hsome
  cases hout with
  | single hs hon hlt =>
      have hempty : handed = [] := by
        rcases (hi.single (hsing ▸ hs)).2 rfl with h | h
        · exact h
        · exact hgo.resolve_right (fun hne => hne h)
      have hchosen : chosen r' = (false, 0) := by simp [chosen, hon, hsing', ← hsing, hs]
      rw [hempty, hchosen]
      refine ⟨hshapes', by simp, ?_, by simp, by simp [hon], by simp, ?_, by simp⟩
      · simp [InLists, ← hlen, hlt]
      · intro _ hns
        rw [← hsing, hs] at hns
        cases hns
  | primary hs hoff hon hav hfree hbits =>
      have hchosen : chosen r' = (false, r'.current) := by
        simp [chosen, hon, hsing', ← hsing, hs]
      have hnew : (false, r'.current) ∉ handed := by
        intro hmem
        have htrue : tested r.tried r'.current = some true := by
          cases hb : backup with
          | none => exact hi.noBackup hb (hsing ▸ hs) _ hmem
          | some b => exact hok (by simp [hi.isSome_eq, hb]) hoff _ hmem hav
        rw [hfree] at htrue
        cases htrue
      rw [hchosen]
      refine inv_append hi hshapes' (hsing ▸ hs) _ hnew ?_ hon (fun _ => hoff) (by simp) ?_
      · simp only [InLists, Bool.false_eq_true, if_false, ← hlen]
        exact available_lt now hav
      · intro hnone
        have hb : backup = none := by simpa using hnone
        have hrb : r.backup = none := by simpa [hb] using hi.isSome_eq
        exact ⟨(hbits hrb).1, fun y hy _ => (hbits hrb).2 _ (hi.noBackup hb (hsing ▸ hs) y hy)⟩
  | moved hoff hon hsome hlt htaken =>
      have hchosen : chosen r' = (true, r'.current) := by simp [chosen, hon]
      have hnew : ∀ y ∈ handed, y.1 ≠ true := fun y hy => by simp [hi.onPrimary hoff y hy]
      rw [hchosen]
      refine inv_append hi hshapes' (hplain hsome) _ (fun hmem => hnew _ hmem rfl) ?_ hon (by simp)
        (fun _ => hi.isSome_eq ▸ hsome) fun _ => ⟨htaken, fun y hy hy1 => absurd hy1 (hnew y hy)⟩
      simpa [InLists] using hi.backup_length _ hlt
  | backup hoff hon hsome hlt hfree htaken hbits =>
      have hchosen : chosen r' = (true, r'.current) := by simp [chosen, hon]
      have hnew : (true, r'.current) ∉ handed := by
        intro hmem
        have htrue := hi.bits _ hmem
        rw [hfree] at htrue
        cases htrue
      rw [hchosen]
      refine inv_append hi hshapes' (hplain hsome) _ hnew ?_ hon (by simp)
        (fun _ => hi.isSome_eq ▸ hsome) fun _ => ⟨htaken, fun y hy hy1 => ?_⟩
      · simpa [InLists] using hi.backup_length _ hlt
      · obtain ⟨b, i⟩ := y
        obtain rfl : b = true := hy1
        exact hbits i (hi.bits i hy)

theorem inv_run (hl : Lists primary backup) {handed : List (Bool × Nat)} {due : Bool} {r : Request}
    (h : Run Undisturbed primary backup handed due r) : Inv primary backup handed due r := by
  induction h with
  | start => exact inv_start primary backup
  | elsewhere _ hstep ih => exact inv_elsewhere ih hstep
  | get _ hgo hok hget hrc ih => exact inv_get ih hl hgo hok hget hrc
  | free _ hfree ih => exact inv_free _ ih hl hfree

-- There are no more different peers than the two lists hold.
theorem length_le_of_inLists (handed : List (Bool × Nat)) (hn : handed.Nodup)
    (hin : ∀ x ∈ handed, InLists primary backup x ∧ (x.1 = true → backup.isSome = true)) :
    handed.length ≤ primary.peer.length + (backup.map (·.peer.length)).getD 0 := by
  have hsub : handed ⊆ (List.range primary.peer.length).map (false, ·) ++
      (List.range ((backup.map (·.peer.length)).getD 0)).map (true, ·) := by
    rintro ⟨b, i⟩ hx
    obtain ⟨hin, hsome⟩ := hin _ hx
    cases b with
    | false => simpa [InLists] using hin
    | true =>
        obtain ⟨l, hl⟩ := Option.isSome_iff_exists.mp (hsome rfl)
        have hlt : i < l.peer.length := by simpa [InLists] using hin l hl
        simpa [hl] using hlt
  have hle := (List.subperm_of_subset hn hsub).length_le
  simpa using hle

end Runs

-- One primary peer without a limit of failures, one backup peer.
def lonePrimary (weight : Int) (fails : Nat) (tries : Nat) : Request :=
  ⟨⟨false, 0, [⟨weight, 1, fails, 0, 0, 10, false⟩]⟩, some ⟨false, 0, [freshPeer 1 1]⟩, false, 0, [0], tries⟩

theorem lonePrimary_get (weight : Int) (fails : Nat) (hw : weight = 0 ∨ weight = 1) :
    getRoundRobinPeer 0 (lonePrimary weight fails 1) = some (.ok, lonePrimary 0 fails 2) := by
  have hget : getPeer [⟨weight, 1, fails, 0, 0, 10, false⟩] = (0, [⟨1, 1, fails, 0, 0, 10, false⟩]) := by
    rcases hw with rfl | rfl <;> simp [getPeer, scan, contest, reset]
  have hfree : tested [0#64] 0 = some false := by decide
  have hclear : clear (mark [0#64] 0) 1 = some [0#64] := by decide
  simp [getRoundRobinPeer, attempt, select, rounds, firstTry, inspect, inOrder, take, Request.store,
    lonePrimary, hget, hfree, hclear]

theorem lonePrimary_free (fails : Nat) :
    freeRoundRobinPeer 0 true false (lonePrimary 0 fails 2) =
      some (lonePrimary 0 ((fails + 1) % 2 ^ 64) 1) := by
  rfl

end Nginx.RoundRobin
