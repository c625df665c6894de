import Nginx.Upstream.Retry

namespace Nginx.RoundRobin

-- ngx_http_upstream_create_round_robin_peer for naddrs addresses
def createRoundRobinPeer (naddrs : Nat) : Request :=
  ⟨⟨naddrs = 1, 0, List.replicate naddrs ⟨1, 1, 0, 0, 1, 10, false⟩⟩, none, false, 0,
    List.replicate (words naddrs) 0, naddrs⟩

section Words

variable (now : Int)

-- The words of rrp->tried that the rounds of a loop read; a bit that is set stands in a word read before.
def firstWords : Nat → Conn → List Nat
  | 0, _ => []
  | i + 1, s =>
      let (current, peer) := getPeer s.peers.peer
      current / 64 ::
        match inspect now { s with current, peers := { s.peers with peer } } with
        | some (false, s) => if s.tries = 0 then [] else firstWords i s
        | _ => []

def nextWords : Nat → Conn → List Nat
  | 0, _ => []
  | i + 1, s =>
      s.current / 64 ::
        match inspect now s with
        | some (false, s) => if s.tries = 0 then [] else nextWords i (advance s)
        | _ => []

def selectWords (s : Conn) : List Nat :=
  if s.peers.single then []
  else if s.tries = s.peers.peer.length then firstWords now (rounds s.tries) s
  else nextWords now (rounds s.tries) s

-- n = number / (8 * sizeof(uintptr_t)) + 1; for (i = 0; i < n; i++)
def clearWords (number : Nat) : List Nat := List.range (number / 64 + 1)

def attemptWords (next : Option Peers) (s : Conn) : List Nat :=
  selectWords now s ++
    match next, select now s with
    | some next, some (true, s) => if s.tries = 1 then clearWords next.peer.length else []
    | _, _ => []

def backupWords (backup : Peers) (r : Request) : List Nat :=
  if backup.lastCached ≠ 0 then [] else attemptWords now none ⟨backup, r.current, r.tried, r.tries⟩

-- The words that a call of get_round_robin_peer reads or writes, those of its call for the backup list included.
def getWords (r : Request) : List Nat :=
  if r.onBackup then
    match r.backup with
    | some backup => backupWords now backup r
    | none => []
  else if r.primary.lastCached ≠ 0 then []
  else
    let s : Conn := ⟨r.primary, r.current, r.tried, r.tries⟩
    attemptWords now r.backup s ++
      match r.backup, attempt now r.backup s with
      | some backup, some (false, s) =>
          clearWords backup.peer.length ++
            match clear s.tried backup.peer.length with
            | some tried =>
                backupWords now backup { r.store s with onBackup := true, tries := backup.peer.length, tried }
            | none => []
      | _, _ => []

end Words

section Loops

variable (now : Int) {w n : Nat} {s : Conn}

-- A bitmap of w words, and a position among n peers
structure Ranged (w n : Nat) (s : Conn) : Prop where
  words : s.tried.length = w
  number : s.peers.peer.length = n
  current : s.current < n

theorem inspect_ranged (hfit : n ≤ 64 * w) (h : Ranged w n s) :
    ∃ out, inspect now s = some out ∧ Ranged w n out.2 := by
  have hword : s.current / 64 < s.tried.length := by
    have := h.current
    rw [h.words]
    omega
  have hpeer : s.current < s.peers.peer.length := h.number.symm ▸ h.current
  obtain ⟨bit, hbit⟩ := Option.isSome_iff_exists.mp ((tested_isSome s.tried s.current).mpr hword)
  have hp := List.getElem?_eq_getElem hpeer
  generalize s.peers.peer[s.current] = p at hp
  simp only [inspect, hbit, hp, Option.bind_eq_bind, Option.bind_some]
  split
  · exact ⟨_, rfl, h⟩
  · split
    · exact ⟨_, rfl, (length_mark _ _).trans h.words, h.number, h.current⟩
    · split
      · exact ⟨_, rfl, h⟩
      · split
        · exact ⟨_, rfl, h.words, (List.length_modify _ _ _).trans h.number, h.current⟩
        · exact ⟨_, rfl, h.words, (List.length_modify _ _ _).trans h.number, h.current⟩

theorem advance_ranged (h : Ranged w n s) : Ranged w n (advance s) where
  words := h.words
  number := h.number
  current := by
    have hcurrent := h.current
    have hnumber := h.number
    unfold advance
    dsimp only
    split <;> omega

theorem getPeer_lt (l : List Peer) (hl : 0 < l.length) : (getPeer l).1 < l.length := by
  have hscan : ∀ l' k, scan l' 0 = some k → k < l'.length := by
    intro l' k h
    obtain ⟨j, p, hk, hp, -⟩ := scan_some l' 0 k h
    have := (List.getElem?_eq_some_iff.mp hp).1
    omega
  unfold getPeer
  cases h : scan l 0 with
  | some k => exact hscan l k h
  | none =>
      dsimp only
      cases h' : scan (reset l) 0 with
      | some k => simpa [reset] using hscan _ k h'
      | none => exact hl

theorem getPeer_ranged (h : Ranged w n s) :
    Ranged w n { s with
      current := (getPeer s.peers.peer).1, peers := { s.peers with peer := (getPeer s.peers.peer).2 } } where
  words := h.words
  number := (getPeer_available 0 s.peers.peer).2.trans h.number
  current := h.number ▸ getPeer_lt s.peers.peer (h.number.symm ▸ Nat.zero_lt_of_lt h.current)

theorem Ranged.word (hfit : n ≤ 64 * w) (h : Ranged w n s) : s.current / 64 < w := by
  have := h.current
  omega

-- What a call of a loop comes to: it ends at a position among the peers, and has read words of the bitmap only.
def Stays (w n : Nat) (out : Option (Bool × Conn)) (ks : List Nat) : Prop :=
  (∃ found s, out = some (found, s) ∧ Ranged w n s) ∧ ∀ k ∈ ks, k < w

theorem firstTry_ranged (hfit : n ≤ 64 * w) (i : Nat) (h : Ranged w n s) :
    Stays w n (firstTry now i s) (firstWords now i s) := by
  induction i generalizing s with
  | zero => exact ⟨⟨_, _, rfl, h⟩, fun k hk => absurd hk List.not_mem_nil⟩
  | succ i ih =>
      have hget := getPeer_ranged h
      obtain ⟨⟨found, t⟩, hin, ht⟩ := inspect_ranged now hfit hget
      have hword : (getPeer s.peers.peer).1 / 64 < w := hget.word hfit
      simp only [firstTry, firstWords, hin, Option.bind_eq_bind, Option.bind_some]
      cases found with
      | true => exact ⟨⟨_, _, rfl, ht⟩, List.forall_mem_singleton.mpr hword⟩
      | false =>
          by_cases htries : t.tries = 0
          · simp only [htries, if_true]
            exact ⟨⟨_, _, rfl, ht⟩, List.forall_mem_singleton.mpr hword⟩
          · simp only [htries, if_false]
            obtain ⟨hout, hwords⟩ := ih ht
            exact ⟨hout, List.forall_mem_cons.mpr ⟨hword, hwords⟩⟩

theorem nextTry_ranged (hfit : n ≤ 64 * w) (i : Nat) (h : Ranged w n s) :
    Stays w n (nextTry now i s) (nextWords now i s) := by
  induction i generalizing s with
  | zero => exact ⟨⟨_, _, rfl, h⟩, fun k hk => absurd hk List.not_mem_nil⟩
  | succ i ih =>
      obtain ⟨⟨found, t⟩, hin, ht⟩ := inspect_ranged now hfit h
      have hword := h.word hfit
      simp only [nextTry, nextWords, hin, Option.bind_eq_bind, Option.bind_some]
      cases found with
      | true => exact ⟨⟨_, _, rfl, ht⟩, List.forall_mem_singleton.mpr hword⟩
      | false =>
          have hadvance := advance_ranged ht
          have hsame : (advance t).tries = t.tries := rfl
          by_cases htries : t.tries = 0
          · simp only [hsame, htries, if_true]
            exact ⟨⟨_, _, rfl, hadvance⟩, List.forall_mem_singleton.mpr hword⟩
          · simp only [hsame, htries, if_false]
            obtain ⟨hout, hwords⟩ := ih hadvance
            exact ⟨hout, List.forall_mem_cons.mpr ⟨hword, hwords⟩⟩

theorem take_ranged (h : Ranged w n s) : ∃ t, take s = some t ∧ Ranged w n t := by
  have hpeer : s.current < s.peers.peer.length := h.number.symm ▸ h.current
  simp only [take, List.getElem?_eq_getElem hpeer, Option.bind_eq_bind, Option.bind_some]
  exact ⟨_, rfl, (length_mark _ _).trans h.words, (List.length_modify _ _ _).trans h.number, h.current⟩

theorem select_ranged (hfit : n ≤ 64 * w) (h : Ranged w n s) : Stays w n (select now s) (selectWords now s) := by
  have hpeer : 0 < s.peers.peer.length := h.number.symm ▸ Nat.zero_lt_of_lt h.current
  cases hsingle : s.peers.single with
  | true =>
      simp only [select, selectWords, hsingle, if_true, List.getElem?_eq_getElem hpeer, Option.bind_eq_bind,
        Option.bind_some]
      exact ⟨⟨_, _, rfl, h⟩, fun k hk => absurd hk List.not_mem_nil⟩
  | false =>
      have hloop : ∃ loop ks, select now s = (loop.bind fun out : Bool × Conn =>
          if out.1 then (take out.2).bind fun t => some (true, t) else some (false, out.2)) ∧
          selectWords now s = ks ∧ Stays w n loop ks := by
        by_cases htries : s.tries = s.peers.peer.length
        · refine ⟨firstTry now (rounds s.tries) s, firstWords now (rounds s.tries) s, ?_, ?_, ?_⟩
          · simp only [select, hsingle, htries, Bool.false_eq_true, if_true, if_false]
            rfl
          · simp only [selectWords, hsingle, htries, if_true]
            rfl
          · exact firstTry_ranged now hfit _ h
        · refine ⟨nextTry now (rounds s.tries) s, nextWords now (rounds s.tries) s, ?_, ?_, ?_⟩
          · simp only [select, hsingle, htries, Bool.false_eq_true, if_false]
            rfl
          · simp only [selectWords, hsingle, htries, if_false]
            rfl
          · exact nextTry_ranged now hfit _ h
      obtain ⟨loop, ks, hselect, hks, ⟨found, t, hrun, ht⟩, hwords⟩ := hloop
      refine ⟨?_, hks ▸ hwords⟩
      rw [hselect, hrun]
      cases found with
      | false => exact ⟨_, _, rfl, ht⟩
      | true =>
          obtain ⟨u, htake, hu⟩ := take_ranged ht
          exact ⟨true, u, by simp [htake], hu⟩

-- get_peer does not look at rrp->current.
theorem select_restart (hsingle : s.peers.single = false) (htries : s.tries = s.peers.peer.length)
    (hpeer : 0 < s.peers.peer.length) :
    select now s = select now { s with current := 0 } ∧ selectWords now s = selectWords now { s with current := 0 } := by
  obtain ⟨i, hi⟩ : ∃ i, rounds s.tries = i + 1 := by
    have hpos : s.tries ≠ 0 := htries ▸ Nat.ne_of_gt hpeer
    exact ⟨s.tries - 1, by rw [rounds, if_neg hpos]; omega⟩
  simp only [select, selectWords, hsingle, htries, if_true]
  rw [← htries, hi]
  exact ⟨rfl, rfl⟩

end Loops

section Calls

-- The numbers of peers of an upstream block, and a request whose rrp->current is a peer of rrp->peers
structure Numbered (p : Nat) (b : Option Nat) (r : Request) : Prop where
  lists : Lists r.primary r.backup
  primary : r.primary.peer.length = p
  backup : r.backup.map (·.peer.length) = b
  words : r.tried.length = words (max p (b.getD 0))
  current : ∀ peers ∈ r.peers, r.current < peers.peer.length
  onBackup : r.onBackup = true → r.backup.isSome = true

-- Whether the loops that clear the bitmap stay inside of it
def Clears (p : Nat) (b : Option Nat) : Prop := ∀ n ∈ b, n / 64 + 1 ≤ words (max p n)

variable (now : Int) {p w n : Nat} {b : Option Nat} {s : Conn} {r : Request}

theorem clear_ranged {tried : List (BitVec 64)} (hwords : tried.length = w) (hclear : n / 64 + 1 ≤ w) :
    ∃ cleared, clear tried n = some cleared ∧ cleared.length = w := by
  have hle : n / 64 + 1 ≤ tried.length := hwords.symm ▸ hclear
  refine ⟨_, if_pos hle, ?_⟩
  rw [List.length_append, List.length_replicate, List.length_drop]
  omega

theorem clearWords_inside (hclear : n / 64 + 1 ≤ w) : ∀ k ∈ clearWords n, k < w := by
  intro k hk
  have := List.mem_range.mp hk
  omega

theorem attempt_ranged {next : Option Peers} (hclear : ∀ peers ∈ next, peers.peer.length / 64 + 1 ≤ w)
    (hselect : Stays w n (select now s) (selectWords now s)) :
    Stays w n (attempt now next s) (attemptWords now next s) := by
  obtain ⟨⟨found, t, hrun, ht⟩, hwords⟩ := hselect
  simp only [attempt, attemptWords, hrun, Option.bind_eq_bind, Option.bind_some]
  cases next with
  | none =>
      cases found with
      | true => exact ⟨⟨_, _, rfl, ht⟩, by simpa using hwords⟩
      | false => exact ⟨⟨_, _, rfl, ht⟩, by simpa using hwords⟩
  | some next =>
      have hle := hclear next rfl
      cases found with
      | false => exact ⟨⟨_, _, rfl, ht⟩, by simpa using hwords⟩
      | true =>
          by_cases htries : t.tries = 1
          · obtain ⟨cleared, hcleared, hsize⟩ := clear_ranged ht.words hle
            simp only [htries, hcleared, if_true, Option.bind_some]
            refine ⟨⟨_, _, rfl, hsize, ht.number, ht.current⟩, ?_⟩
            exact List.forall_mem_append.mpr ⟨hwords, clearWords_inside hle⟩
          · simp only [htries, if_true, if_false]
            exact ⟨⟨_, _, rfl, ht⟩, by simpa using hwords⟩

-- What a call leaves: the bitmap with its size, and rrp->current among rrp->peers
structure Leaves (w : Nat) (r : Request) : Prop where
  words : r.tried.length = w
  current : ∀ peers ∈ r.peers, r.current < peers.peer.length
  onBackup : r.onBackup = true → r.backup.isSome = true

theorem store_current (hcurrent : s.current < s.peers.peer.length) :
    ∀ peers ∈ (r.store s).peers, (r.store s).current < peers.peer.length := by
  intro peers hpeers
  have hsame : peers = s.peers := by
    cases hback : r.onBackup <;> simpa [Request.peers, Request.store, hback, eq_comm] using hpeers
  exact hsame ▸ hcurrent

theorem leaves_store (hon : r.onBackup = true → r.backup.isSome = true) (h : Ranged w n s) : Leaves w (r.store s) where
  words := h.words
  current := store_current (h.number.symm ▸ h.current)
  onBackup := by
    intro hback
    have hr : r.onBackup = true := hback
    simp [Request.store, hr]

theorem ranged_forgive (h : Ranged w n s) : Ranged w n { s with peers := forgive s.peers } where
  words := h.words
  number := by
    rw [← h.number]
    exact List.length_map _
  current := h.current

theorem leaves_forgive (h : Leaves w r) : Leaves w { r with primary := forgive r.primary } where
  words := h.words
  current := by
    intro peers hpeers
    cases hback : r.onBackup with
    | true => exact h.current peers (by simpa [Request.peers, hback] using hpeers)
    | false =>
        have hprimary := h.current r.primary (by simp [Request.peers, hback])
        have hsame : peers = forgive r.primary := by simpa [Request.peers, hback, eq_comm] using hpeers
        rw [hsame, forgive]
        simpa using hprimary
  onBackup := h.onBackup

theorem getBackup_ranged {backup : Peers} (hon : r.onBackup = true) (hsome : r.backup.isSome = true)
    (hcached : backup.lastCached = 0)
    (hselect : Stays w n (select now ⟨backup, r.current, r.tried, r.tries⟩)
      (selectWords now ⟨backup, r.current, r.tried, r.tries⟩)) :
    (∃ rc r', getBackup now backup r = some (rc, r') ∧ Leaves w r') ∧ ∀ k ∈ backupWords now backup r, k < w := by
  have hattempt : Stays w n (attempt now none ⟨backup, r.current, r.tried, r.tries⟩)
      (attemptWords now none ⟨backup, r.current, r.tried, r.tries⟩) :=
    attempt_ranged now (fun _ h => absurd h (Option.not_mem_none _)) hselect
  obtain ⟨⟨found, t, hrun, ht⟩, hwords⟩ := hattempt
  simp only [getBackup, backupWords, hcached, ne_eq, not_true, if_false, hrun, Option.bind_eq_bind,
    Option.bind_some]
  refine ⟨?_, hwords⟩
  cases found with
  | true => exact ⟨_, _, rfl, leaves_store (fun _ => hsome) ht⟩
  | false => exact ⟨_, _, rfl, leaves_store (fun _ => hsome) (ranged_forgive ht)⟩

theorem Numbered.of_leaves {r' : Request} (h : Numbered p b r) (hshapes : shapes r' = shapes r)
    (hleaves : Leaves r.tried.length r') : Numbered p b r' where
  lists := lists_of_shapes hshapes h.lists
  primary := by
    have := congrArg (fun x => x.1.1) hshapes
    exact this.trans h.primary
  backup := by
    have hmap := congrArg (fun x => x.2.map (·.1)) hshapes
    simp only [shapes, Option.map_map] at hmap
    exact hmap.trans h.backup
  words := hleaves.words.trans h.words
  current := hleaves.current
  onBackup := hleaves.onBackup

theorem Numbered.backup_length {backup : Peers} (h : Numbered p b r) (hb : r.backup = some backup) :
    b = some backup.peer.length := by
  rw [← h.backup, hb]
  rfl

theorem Numbered.fits (h : Numbered p b r) : p ≤ 64 * r.tried.length ∧ ∀ n ∈ b, n ≤ 64 * r.tried.length := by
  rw [h.words]
  refine ⟨words_enough _ _ (Nat.le_max_left _ _), ?_⟩
  rintro n rfl
  exact words_enough _ _ (Nat.le_max_right _ _)

theorem Numbered.clears (h : Numbered p b r) (hclear : Clears p b) :
    ∀ peers ∈ r.backup, peers.peer.length / 64 + 1 ≤ r.tried.length := by
  intro peers hpeers
  have hb := h.backup_length hpeers
  rw [h.words, hb]
  exact hclear _ hb

-- The call on the list of the backup peers, with its own first try or with rrp->current as the last call left it
theorem get_leaves_backup (h : Numbered p b r) (hon : r.onBackup = true) :
    (∃ rc r', getRoundRobinPeer now r = some (rc, r') ∧ Leaves r.tried.length r') ∧
      ∀ k ∈ getWords now r, k < r.tried.length := by
  obtain ⟨backup, hb⟩ := Option.isSome_iff_exists.mp (h.onBackup hon)
  obtain ⟨hcached, -⟩ := h.lists.plain backup hb
  have hcurrent := h.current backup (by simp [Request.peers, hon, hb])
  have hfit := h.fits.2 _ (h.backup_length hb)
  have hranged : Ranged r.tried.length backup.peer.length ⟨backup, r.current, r.tried, r.tries⟩ := ⟨rfl, rfl, hcurrent⟩
  have hcall := getBackup_ranged now hon (h.onBackup hon) hcached (select_ranged now hfit hranged)
  simpa only [getRoundRobinPeer, getWords, hon, hb, if_true, Option.bind_eq_bind, Option.bind_some] using hcall

theorem get_leaves_primary (hpositive : ∀ n ∈ b, 0 < n) (hclear : Clears p b) (h : Numbered p b r)
    (hoff : r.onBackup = false) :
    (∃ rc r', getRoundRobinPeer now r = some (rc, r') ∧ Leaves r.tried.length r') ∧
      ∀ k ∈ getWords now r, k < r.tried.length := by
  have hnumber := h.primary
  have hcurrent := h.current r.primary (by simp [Request.peers, hoff])
  have hranged : Ranged r.tried.length p ⟨r.primary, r.current, r.tried, r.tries⟩ :=
    ⟨rfl, hnumber, hnumber ▸ hcurrent⟩
  obtain ⟨⟨found, t, hrun, ht⟩, hwords⟩ :=
    attempt_ranged now (h.clears hclear) (select_ranged now h.fits.1 hranged)
  have hstore : Leaves r.tried.length (r.store t) := leaves_store (fun hon => absurd hon (by simp [hoff])) ht
  simp only [getRoundRobinPeer, getWords, hoff, h.lists.cached, Bool.false_eq_true, ne_eq, not_true, if_false,
    hrun, Option.bind_eq_bind, Option.bind_some]
  cases found with
  | true =>
      refine ⟨⟨_, _, rfl, hstore⟩, ?_⟩
      cases hb : r.backup <;> simpa [hb] using hwords
  | false =>
      cases hb : r.backup with
      | none =>
          have hnone : (r.store t).backup = none := by simp [Request.store, hoff, hb]
          have hforgive := leaves_forgive hstore
          simp only [hnone] at hforgive
          simp only [hnone, Bool.false_eq_true, if_false]
          exact ⟨⟨_, _, rfl, hforgive⟩, by simpa [hb] using hwords⟩
      | some backup =>
          have hsome : (r.store t).backup = some backup := by simp [Request.store, hoff, hb]
          obtain ⟨hcached, hsingle⟩ := h.lists.plain backup hb
          have hlength := h.backup_length hb
          have hpos := hpositive _ hlength
          have hle := h.clears hclear backup hb
          obtain ⟨cleared, hcleared, hsize⟩ := clear_ranged ht.words hle
          -- The first try on the new list sets rrp->current, which still counts in the old one.
          have hselect : Stays r.tried.length backup.peer.length
              (select now ⟨backup, t.current, cleared, backup.peer.length⟩)
              (selectWords now ⟨backup, t.current, cleared, backup.peer.length⟩) := by
            obtain ⟨hrestart, hrestartWords⟩ :=
              select_restart (s := ⟨backup, t.current, cleared, backup.peer.length⟩) now hsingle rfl hpos
            rw [hrestart, hrestartWords]
            exact select_ranged now (h.fits.2 _ hlength) ⟨hsize, rfl, hpos⟩
          have hcleared' : clear (r.store t).tried backup.peer.length = some cleared := hcleared
          obtain ⟨⟨rc, r', hget, hleaves⟩, hback⟩ :=
            getBackup_ranged (r := { r.store t with
              onBackup := true, tries := backup.peer.length, tried := cleared })
              now rfl (by simp [hsome]) hcached hselect
          simp only [hsome] at hget
          simp only [hsome, hcleared', hget, Bool.false_eq_true, if_false, Option.bind_some]
          refine ⟨?_, ?_⟩
          · cases rc with
            | busy => exact ⟨_, _, rfl, leaves_forgive hleaves⟩
            | ok => exact ⟨_, _, rfl, hleaves⟩
            | cached => exact ⟨_, _, rfl, hleaves⟩
          · rw [hb] at hwords
            simp only [hcleared]
            exact List.forall_mem_append.mpr ⟨hwords, List.forall_mem_append.mpr ⟨clearWords_inside hle, hback⟩⟩

theorem get_numbered (hpositive : ∀ n ∈ b, 0 < n) (hclear : Clears p b) (h : Numbered p b r) :
    (∃ rc r', getRoundRobinPeer now r = some (rc, r') ∧ Numbered p b r') ∧
      ∀ k ∈ getWords now r, k < r.tried.length := by
  have hcall : (∃ rc r', getRoundRobinPeer now r = some (rc, r') ∧ Leaves r.tried.length r') ∧
      ∀ k ∈ getWords now r, k < r.tried.length := by
    cases hon : r.onBackup with
    | true => exact get_leaves_backup now h hon
    | false => exact get_leaves_primary now hpositive hclear h hon
  obtain ⟨⟨rc, r', hget, hleaves⟩, hwords⟩ := hcall
  obtain ⟨hshapes, -⟩ := get_spec now r r' rc h.lists hget
  exact ⟨⟨rc, r', hget, h.of_leaves hshapes hleaves⟩, hwords⟩

theorem account_length (fail : Bool) {peer peer' : List Peer} {current : Nat}
    (h : account now fail peer current = some peer') : peer'.length = peer.length := by
  unfold account at h
  split at h
  · obtain ⟨p, -, rfl⟩ := Option.map_eq_some_iff.mp h
    exact List.length_modify _ _ _
  · rw [Option.some.inj h]

theorem free_current (fail zero : Bool) {r' : Request} (h : freeRoundRobinPeer now fail zero r = some r')
    (hcurrent : ∀ peers ∈ r.peers, r.current < peers.peer.length) :
    ∀ peers ∈ r'.peers, r'.current < peers.peer.length := by
  unfold freeRoundRobinPeer at h
  split at h
  · obtain rfl := Option.some.inj h
    exact hcurrent
  · obtain ⟨peers, hp, h⟩ := Option.bind_eq_some_iff.mp h
    split at h
    · obtain rfl := Option.some.inj h
      exact hcurrent
    · obtain ⟨peer, hpeer, h⟩ := Option.bind_eq_some_iff.mp h
      obtain rfl := Option.some.inj h
      have hlt := hcurrent peers hp
      have hlength : peer.length = peers.peer.length := account_length now fail hpeer
      apply store_current
      exact (advance_ranged (s := ⟨{ peers with peer }, r.current, r.tried, r.tries⟩)
        ⟨rfl, hlength, hlt⟩).current.trans_eq hlength.symm

theorem free_numbered (fail zero : Bool) {r' : Request} (hfree : freeRoundRobinPeer now fail zero r = some r')
    (h : Numbered p b r) : Numbered p b r' := by
  obtain ⟨hshapes, hon, htried, -⟩ := free_spec now fail zero r r' hfree
  refine h.of_leaves hshapes ⟨congrArg List.length htried, free_current now fail zero hfree h.current, ?_⟩
  intro hback
  have hsome : r'.backup.isSome = r.backup.isSome := by
    have := congrArg (fun x => x.2.isSome) hshapes
    simpa [shapes] using this
  rw [hsome]
  exact h.onBackup (hon ▸ hback)

theorem elsewhere_numbered {r' : Request} (hstep : Elsewhere r r') (h : Numbered p b r) : Numbered p b r' := by
  obtain ⟨hprimary, hbackup⟩ := Prod.mk.inj hstep.shapes
  have hlength : r'.primary.peer.length = r.primary.peer.length := congrArg (·.1) hprimary
  have hlengths : r'.backup.map (·.peer.length) = r.backup.map (·.peer.length) := by
    have hmap := congrArg (Option.map (·.1)) hbackup
    simp only [Option.map_map] at hmap
    exact hmap
  refine h.of_leaves hstep.shapes ⟨congrArg List.length hstep.tried, ?_, ?_⟩
  · intro peers hpeers
    rw [hstep.current]
    cases hback : r.onBackup with
    | false =>
        have hsame : peers = r'.primary := by
          simpa [Request.peers, hstep.onBackup, hback, eq_comm] using hpeers
        rw [hsame, hlength]
        exact h.current r.primary (by simp [Request.peers, hback])
    | true =>
        have hmem : r'.backup = some peers := by simpa [Request.peers, hstep.onBackup, hback] using hpeers
        rw [hmem] at hlengths
        obtain ⟨backup, hb, hsame⟩ := Option.map_eq_some_iff.mp hlengths.symm
        have hlt := h.current backup (by simp [Request.peers, hback, hb])
        exact hlt.trans_eq hsame
  · intro hback
    have hsome : r.backup.isSome = true := h.onBackup (hstep.onBackup ▸ hback)
    have := congrArg Option.isSome hlengths
    simpa [hsome] using this

end Calls

section Reachable

-- What the calls of one request come to in any order and at any times, with other requests in between
inductive Arises (p : Nat) (b : Option Nat) : Request → Prop where
  | init {primary backup} : Lists primary backup → primary.peer.length = p → backup.map (·.peer.length) = b →
      Arises p b (initRoundRobinPeer primary backup)
  | create : b = none → Arises p b (createRoundRobinPeer p)
  | get {now r rc r'} : Arises p b r → getRoundRobinPeer now r = some (rc, r') → Arises p b r'
  | free {now fail zero r r'} : Arises p b r → freeRoundRobinPeer now fail zero r = some r' → Arises p b r'
  | elsewhere {r r'} : Arises p b r → Elsewhere r r' → Arises p b r'

-- With p primary and b backup peers every call uses words of the bitmap only.
def TriedInside (p : Nat) (b : Option Nat) : Prop :=
  ∀ r, Arises p b r → ∀ now, ∀ k ∈ getWords now r, k < r.tried.length

variable {p : Nat} {b : Option Nat}

theorem init_numbered (hp : 0 < p) {primary : Peers} {backup : Option Peers} (hl : Lists primary backup)
    (hprimary : primary.peer.length = p) (hbackup : backup.map (·.peer.length) = b) :
    Numbered p b (initRoundRobinPeer primary backup) where
  lists := hl
  primary := hprimary
  backup := hbackup
  words := by
    rw [initRoundRobinPeer, hprimary, hbackup]
    exact List.length_replicate
  current := by
    intro peers hpeers
    obtain rfl := Option.some.inj hpeers
    exact hprimary.symm ▸ hp
  onBackup := fun hon => absurd hon Bool.false_ne_true

theorem create_numbered (hp : 0 < p) : Numbered p none (createRoundRobinPeer p) where
  lists := ⟨rfl, fun _ h => absurd h (Option.not_mem_none _), fun _ => rfl⟩
  primary := List.length_replicate
  backup := rfl
  words := by
    rw [Option.getD_none, Nat.max_zero]
    exact List.length_replicate
  current := by
    intro peers hpeers
    obtain rfl := Option.some.inj hpeers
    exact hp.trans_eq List.length_replicate.symm
  onBackup := fun hon => absurd hon Bool.false_ne_true

theorem arises_numbered (hp : 0 < p) (hpositive : ∀ n ∈ b, 0 < n) (hclear : Clears p b) {r : Request}
    (h : Arises p b r) : Numbered p b r := by
  induction h with
  | init hl hprimary hbackup => exact init_numbered hp hl hprimary hbackup
  | create hnone => exact hnone ▸ create_numbered hp
  | get _ hget ih =>
      obtain ⟨⟨rc, r', hget', hr'⟩, -⟩ := get_numbered _ hpositive hclear ih
      rw [hget'] at hget
      obtain ⟨-, rfl⟩ := Prod.mk.inj (Option.some.inj hget)
      exact hr'
  | free _ hfree ih => exact free_numbered _ _ _ hfree ih
  | elsewhere _ hstep ih => exact elsewhere_numbered hstep ih

-- Only a multiple of 64 is rounded up to more words than it needs.
theorem clears_iff (hp : 0 < p) : Clears p b ↔ ∀ n ∈ b, 64 ∣ n → n < p := by
  unfold Clears words
  apply forall₂_congr
  intro n _
  split <;> omega

def downPeers (n : Nat) : Peers := ⟨false, 0, List.replicate n { freshPeer 1 1 with down := true }⟩

theorem downPeers_available (now : Int) (n c : Nat) :
    ((downPeers n).peer.map (available now))[c]? ≠ some true := by
  rw [downPeers, List.map_replicate]
  intro h
  obtain ⟨hlt, hget⟩ := List.getElem?_eq_some_iff.mp h
  rw [List.getElem_replicate] at hget
  exact absurd hget (by simp [available])

-- When all primary peers are down the first call clears the bitmap for the backup peers.
theorem down_clears (hp : 0 < p) (n : Nat) :
    n / 64 ∈ getWords 0 (initRoundRobinPeer (downPeers p) (some (downPeers n))) := by
  have hfit : p ≤ 64 * words (max p n) := words_enough _ _ (Nat.le_max_left _ _)
  let s : Conn := conn (initRoundRobinPeer (downPeers p) (some (downPeers n)))
  have hwords : s.tried.length = words (max p n) := by
    simp [s, conn, initRoundRobinPeer, downPeers]
  have hranged : Ranged (words (max p n)) p s := ⟨hwords, List.length_replicate, hp⟩
  obtain ⟨⟨found, t, hselect, -⟩, -⟩ := select_ranged 0 hfit hranged
  have hmissed : found = false := by
    cases found with
    | false => rfl
    | true =>
        have htakes : Takes 0 s t := select_outcome 0 s t true rfl hselect
        exact absurd htakes.available (downPeers_available 0 p _)
  subst hmissed
  have hattempt : attempt 0 (some (downPeers n)) s = some (false, t) := by
    rw [attempt, hselect]
    rfl
  have hword : n / 64 ∈ clearWords (downPeers n).peer.length := by
    rw [clearWords, downPeers, List.length_replicate]
    exact List.mem_range.mpr (Nat.lt_succ_self _)
  have harises : (initRoundRobinPeer (downPeers p) (some (downPeers n))).onBackup = false := rfl
  have hcached : (initRoundRobinPeer (downPeers p) (some (downPeers n))).primary.lastCached = 0 := rfl
  have hbackup : (initRoundRobinPeer (downPeers p) (some (downPeers n))).backup = some (downPeers n) := rfl
  simp only [getWords, harises, hcached, hbackup, Bool.false_eq_true, ne_eq, not_true, if_false]
  apply List.mem_append_right
  change n / 64 ∈ match some (downPeers n), attempt 0 (some (downPeers n)) s with
    | some backup, some (false, s) => _
    | _, _ => []
  rw [hattempt]
  exact List.mem_append_left _ hword

theorem tried_inside_iff (hp : 0 < p) (hpositive : ∀ n ∈ b, 0 < n) :
    TriedInside p b ↔ ∀ n ∈ b, 64 ∣ n → n < p := by
  rw [← clears_iff hp]
  constructor
  · intro hinside n hb
    obtain rfl := Option.mem_def.mp hb
    have hl : Lists (downPeers p) (some (downPeers n)) :=
      ⟨rfl, fun _ h => Option.some.inj h ▸ ⟨rfl, rfl⟩, fun h => absurd h Bool.false_ne_true⟩
    have hprimary : (downPeers p).peer.length = p := List.length_replicate
    have hbackup : (some (downPeers n)).map (·.peer.length) = some n := congrArg some List.length_replicate
    have hlt := hinside _ (.init hl hprimary hbackup) 0 _ (down_clears hp n)
    rw [(init_numbered hp hl hprimary hbackup).words] at hlt
    exact hlt
  · intro hclear r hreach now
    exact (get_numbered now hpositive hclear (arises_numbered hp hpositive hclear hreach)).2

-- One primary and one backup peer: one word is allocated, and one is cleared.
theorem tried_inside_pair : (0 < 1 ∧ ∀ n ∈ some 1, 0 < n) ∧ (TriedInside 1 (some 1) ↔ ∀ n ∈ some 1, 64 ∣ n → n < 1) :=
  ⟨by decide, tried_inside_iff Nat.one_pos (by decide)⟩

-- One primary and 64 backup peers: the first call that takes the primary peer clears a second word.
theorem second_word_cleared :
    let primary : Peers := ⟨false, 0, [freshPeer 1 1]⟩
    let backup : Peers := ⟨false, 0, List.replicate 64 (freshPeer 1 1)⟩
    (initRoundRobinPeer primary (some backup)).tried.length = 1 ∧
      getWords 0 (initRoundRobinPeer primary (some backup)) = [0, 0, 1] ∧ ¬TriedInside 1 (some 64) := by
  intro primary backup
  have hsize : (initRoundRobinPeer primary (some backup)).tried.length = 1 := by decide
  have hwords : getWords 0 (initRoundRobinPeer primary (some backup)) = [0, 0, 1] := by decide
  refine ⟨hsize, hwords, ?_⟩
  intro hinside
  have harises : Arises 1 (some 64) (initRoundRobinPeer primary (some backup)) := by
    refine .init ⟨rfl, ?_, fun h => absurd h Bool.false_ne_true⟩ rfl (by decide)
    intro peers hpeers
    exact Option.some.inj hpeers ▸ ⟨rfl, rfl⟩
  have hlt := hinside _ harises 0 1 (by rw [hwords]; decide)
  rw [hsize] at hlt
  exact absurd hlt (Nat.lt_irrefl 1)

end Reachable

end Nginx.RoundRobin
