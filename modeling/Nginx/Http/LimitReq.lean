import Nginx.Core.Crc32
import Nginx.Core.Memcmp
import Nginx.Core.Rbtree.Rotate
import Nginx.Core.Rbtree.Delete
import Nginx.Core.Rbtree.Insert

namespace Nginx.LimitReq

open LinkedTree

-- ngx_http_limit_req_shctx_t with the fields of its nodes. The queue lists the nodes from its head.
structure Zone where
  nodes : Rbtree.Nodes
  key : Ptr → Nat
  len : Ptr → Nat
  last : Ptr → Nat
  excess : Ptr → Nat
  data : Ptr → Bytes
  queue : List Ptr

-- ngx_http_limit_req_conf_t of a location that has a zone.
structure Conf where
  burst : Nat
  nodelay : Bool

-- What the handler reads of a request: limit_req_set of the main request, the location, the variable,
-- the cached time in milliseconds, what ngx_slab_alloc_locked returns for a size beside the live nodes,
-- and whether ngx_handle_read_event succeeds.
structure Request where
  limitReqSet : Bool
  conf : Option Conf
  value : Option Bytes
  now : Nat
  alloc : List Ptr → Nat → Option Ptr
  readEvent : Bool

-- NGX_DECLINED, the two status codes and NGX_AGAIN with the delay of the timer. A fault is a division
-- by zero.
inductive Answer where
  | declined
  | unavailable
  | internalError
  | again (delay : Nat)
  | fault
deriving DecidableEq

inductive Rc where
  | declined
  | ok
  | busy
  | again

def put {β : Type} (f : Ptr → β) (p : Ptr) (v : β) : Ptr → β := fun q => if q = p then v else f q

-- The rbtree and the queue after ngx_http_limit_req_init_zone.
def initZone (s : Ptr) (ζ : Zone) : Zone :=
  { ζ with nodes := (ζ.nodes.setLabel s false).setRoot s, queue := [] }

-- The comparison of ngx_http_limit_req_rbtree_insert_value.
def goLeft (ζ : Zone) (node temp : Ptr) : Bool :=
  if ζ.key node < ζ.key temp then true
  else if ζ.key temp < ζ.key node then false
  else memn2cmp (ζ.data node) (ζ.data temp) (ζ.len node) (ζ.len temp) < 0

def insertValue (ζ : Zone) (fuel : Nat) (s : Ptr) (H : Rbtree.Nodes) (temp node : Ptr) :
    Option Rbtree.Nodes := Rbtree.insertBy (goLeft ζ node) fuel s H temp node

-- The comparison of ngx_http_limit_req_lookup.
def order (ζ : Zone) (hash : Nat) (data : Bytes) (node : Ptr) : Ordering :=
  if hash < ζ.key node then .lt
  else if ζ.key node < hash then .gt
  else
    let rc := memn2cmp data (ζ.data node) data.length (ζ.len node)
    if rc = 0 then .eq else if rc < 0 then .lt else .gt

-- ngx_abs((ngx_msec_int_t) (now - lr->last))
def elapsed (now last : Nat) : Nat := (toInt64 ((now : Int) - last)).natAbs

-- ctx->rate * ms / 1000
def leak (rate ms : Nat) : Nat := toSize (rate * ms) / 1000

-- The excess with one more request.
def newExcess (rate now excess last : Nat) : Nat :=
  (max (toInt64 ((excess : Int) - leak rate (elapsed now last) + 1000)) 0).toNat

-- ngx_http_limit_req_lookup
def lookup (fuel : Nat) (s : Ptr) (rate : Nat) (conf : Conf) (ζ : Zone) (now hash : Nat) (data : Bytes) :
    Option (Rc × Nat × Zone) := do
  let node ← Rbtree.search (order ζ hash data) s ζ.nodes fuel ζ.nodes.root
  if node = s then return (.declined, 0, ζ)
  else
    let ζ := { ζ with queue := node :: ζ.queue.erase node }
    let excess := newExcess rate now (ζ.excess node) (ζ.last node)
    if conf.burst < excess then return (.busy, excess, ζ)
    else
      let ζ := { ζ with excess := put ζ.excess node excess, last := put ζ.last node now }
      return (if excess = 0 then .ok else .again, excess, ζ)

-- The conditions under which ngx_http_limit_req_expire goes on to delete a node.
def stale (rate now : Nat) (ζ : Zone) (q : Ptr) : Bool :=
  let ms := elapsed now (ζ.last q)
  60000 ≤ ms && toInt64 ((ζ.excess q : Int) - leak rate ms) ≤ 0

-- ngx_http_limit_req_expire. The loop runs while n < 3, and the count here is 3 - n: with 3 of them
-- the oldest node is deleted by force.
def expire (fuel : Nat) (s : Ptr) (rate now : Nat) : Nat → Zone → Option Zone
  | 0, ζ => some ζ
  | k + 1, ζ =>
      match ζ.queue.getLast? with
      | none => some ζ
      | some q =>
          if k ≠ 2 ∧ stale rate now ζ q = false then some ζ
          else do
            let H ← Rbtree.delete fuel s ζ.nodes q
            expire fuel s rate now k
              { ζ with nodes := H, key := put ζ.key q 0, queue := ζ.queue.dropLast }

-- The size of a node: the offsets of color and of data, and the length of the key.
def nodeSize (len : Nat) : Nat := 32 + 40 + len

def allocate (fuel : Nat) (s : Ptr) (rate : Nat) (r : Request) (ζ : Zone) (n : Nat) :
    Option (Option Ptr × Zone) :=
  match r.alloc ζ.queue n with
  | some node => some (some node, ζ)
  | none => do
      let ζ ← expire fuel s rate r.now 3 ζ
      return (r.alloc ζ.queue n, ζ)

-- The entry of a new key. lr->len = (u_char) len
def create (fuel : Nat) (s : Ptr) (ζ : Zone) (node now hash : Nat) (data : Bytes) : Option Zone := do
  let ζ := { ζ with
    key := put ζ.key node hash, len := put ζ.len node (data.length % 256), last := put ζ.last node now,
    excess := put ζ.excess node 0, data := put ζ.data node data }
  let H ← Rbtree.insert (insertValue ζ) fuel s ζ.nodes node
  return { ζ with nodes := H, queue := node :: ζ.queue }

-- The answer to a request whose key has an entry.
def respond (rate : Nat) (conf : Conf) (r : Request) (excess : Nat) : Rc → Answer
  | .declined => .declined
  | .ok => .declined
  | .busy => .unavailable
  | .again =>
      if conf.nodelay then .declined
      else if r.readEvent = false then .internalError
      else if rate = 0 then .fault
      else .again (toSize (excess * 1000) / rate)

-- The key and the location of a request that reaches the limiter.
def Request.limited (r : Request) : Option (Conf × Bytes) :=
  if r.limitReqSet then none
  else
    match r.conf, r.value with
    | some conf, some data => if data.length = 0 ∨ 65535 < data.length then none else some (conf, data)
    | _, _ => none

def limit (fuel : Nat) (s : Ptr) (rate : Nat) (ζ : Zone) (r : Request) (conf : Conf) (data : Bytes) :
    Option (Answer × Zone) := do
  let hash := (crc32Short data).toNat
  let ζ ← expire fuel s rate r.now 2 ζ
  let (rc, excess, ζ) ← lookup fuel s rate conf ζ r.now hash data
  match rc with
  | .declined =>
      let (node, ζ) ← allocate fuel s rate r ζ (nodeSize data.length)
      match node with
      | none => return (.unavailable, ζ)
      | some node => do
          let ζ ← create fuel s ζ node r.now hash data
          return (.declined, ζ)
  | rc => return (respond rate conf r excess rc, ζ)

-- ngx_http_limit_req_handler: the answer, limit_req_set afterwards, and the zone.
def handler (fuel : Nat) (s : Ptr) (rate : Nat) (ζ : Zone) (r : Request) :
    Option (Answer × Bool × Zone) :=
  match r.limited with
  | none => some (.declined, r.limitReqSet, ζ)
  | some (conf, data) => do
      let (answer, ζ) ← limit fuel s rate ζ r conf data
      return (answer, true, ζ)

-- The requests one after the other, each under the lock of the zone, with their answers.
def run (fuel : Nat) (s : Ptr) (rate : Nat) : Zone → List Request → Option (List (Request × Answer) × Zone)
  | ζ, [] => some ([], ζ)
  | ζ, r :: rs => do
      let (answer, _, ζ) ← handler fuel s rate ζ r
      let (log, ζ) ← run fuel s rate ζ rs
      return ((r, answer) :: log, ζ)

open LinkedTree Rbtree

def hash (data : Bytes) : Nat := (crc32Short data).toNat

-- Where a key belongs in the tree.
def placeOf (data : Bytes) : ℕ ×ₗ List ℕ := toLex (hash data, rank data)

def place (ζ : Zone) (p : Ptr) : ℕ ×ₗ List ℕ := toLex (ζ.key p, rank (ζ.data p))

theorem placeOf_injective {d e : Bytes} (h : placeOf d = placeOf e) : d = e := by
  have hpair : (hash d, rank d) = (hash e, rank e) := toLex.injective h
  exact (rank_injective d e).mp (Prod.ext_iff.mp hpair).2

-- The node was written for a key of at most 255 bytes, within a burst and before the clock.
structure Entry (B clock : Nat) (ζ : Zone) (p : Ptr) : Prop where
  key : ζ.key p = hash (ζ.data p)
  len : ζ.len p = (ζ.data p).length
  excess : ζ.excess p ≤ B
  last : ζ.last p ≤ clock

structure Sound (s : Ptr) (B clock : Nat) (ζ : Zone) (t : Linked Bool) : Prop where
  valid : Valid s ζ.nodes t
  sorted : t.toList.Pairwise fun p q => place ζ p < place ζ q
  queue : ζ.queue.Perm t.toList
  entry : ∀ p ∈ t.toList, Entry B clock ζ p

variable {s : Ptr} {B clock : Nat} {ζ : Zone} {t : Linked Bool} {p q : Ptr}

theorem Entry.place_eq (h : Entry B clock ζ p) : place ζ p = placeOf (ζ.data p) := by
  rw [place, placeOf, h.key]

theorem goLeft_eq (hp : ζ.len p = (ζ.data p).length) (hq : ζ.len q = (ζ.data q).length) :
    goLeft ζ p q = decide (place ζ p < place ζ q) := by
  have hlt : place ζ p < place ζ q ↔
      ζ.key p < ζ.key q ∨ ζ.key p = ζ.key q ∧ rank (ζ.data p) < rank (ζ.data q) := Prod.Lex.toLex_lt_toLex
  rw [Bool.eq_iff_iff, decide_eq_true_eq, hlt, ← memn2cmp_neg_iff, goLeft, hp, hq]
  by_cases h1 : ζ.key p < ζ.key q
  · simp [h1]
  · by_cases h2 : ζ.key q < ζ.key p
    · have hne : ζ.key p ≠ ζ.key q := by omega
      simp [h1, h2, hne]
    · have heq : ζ.key p = ζ.key q := by omega
      simp [heq]

theorem order_eq (data : Bytes) (hp : ζ.len p = (ζ.data p).length) :
    order ζ (hash data) data p = cmp (placeOf data) (place ζ p) := by
  have hlt : placeOf data < place ζ p ↔
      hash data < ζ.key p ∨ hash data = ζ.key p ∧ rank data < rank (ζ.data p) := Prod.Lex.toLex_lt_toLex
  have heq : placeOf data = place ζ p ↔ hash data = ζ.key p ∧ data = ζ.data p := by
    rw [← rank_injective data, placeOf, place, toLex.injective.eq_iff, Prod.mk.injEq]
  rw [order, hp]
  by_cases h1 : hash data < ζ.key p
  · rw [if_pos h1, cmp_eq_lt_iff _ _ |>.mpr (hlt.mpr (.inl h1))]
  · rw [if_neg h1]
    by_cases h2 : ζ.key p < hash data
    · have hgt : place ζ p < placeOf data := by
        refine lt_of_le_of_ne (not_lt.mp fun h => ?_) fun h => ?_
        · rcases hlt.mp h with h | h <;> omega
        · have := (heq.mp h.symm).1
          omega
      rw [if_pos h2, (cmp_eq_gt_iff _ _).mpr hgt]
    · have hkey : hash data = ζ.key p := by omega
      rw [if_neg h2]
      have hzero := memn2cmp_eq_zero_iff data (ζ.data p)
      have hneg := memn2cmp_neg_iff data (ζ.data p)
      by_cases h3 : memn2cmp data (ζ.data p) data.length (ζ.data p).length = 0
      · rw [if_pos h3, (cmp_eq_eq_iff _ _).mpr (heq.mpr ⟨hkey, hzero.mp h3⟩)]
      · rw [if_neg h3]
        by_cases h4 : memn2cmp data (ζ.data p) data.length (ζ.data p).length < 0
        · rw [if_pos h4, (cmp_eq_lt_iff _ _).mpr (hlt.mpr (.inr ⟨hkey, hneg.mp h4⟩))]
        · have hgt : place ζ p < placeOf data := by
            refine lt_of_le_of_ne (not_lt.mp fun h => ?_) fun h => ?_
            · rcases hlt.mp h with h | h
              · omega
              · exact h4 (hneg.mpr h.2)
            · exact h3 (hzero.mpr (heq.mp h.symm).2)
          rw [if_neg h4, (cmp_eq_gt_iff _ _).mpr hgt]

-- Two nodes never have the same key.
theorem Sound.unique (h : Sound s B clock ζ t) (hp : p ∈ ζ.queue) (hq : q ∈ ζ.queue)
    (heq : ζ.data p = ζ.data q) : p = q := by
  rw [h.queue.mem_iff] at hp hq
  have hne : ∀ {p q}, p ∈ t.toList → q ∈ t.toList → place ζ p < place ζ q → ζ.data p ≠ ζ.data q := by
    intro p q hp hq hlt heq
    rw [(h.entry p hp).place_eq, (h.entry q hq).place_eq, heq] at hlt
    exact lt_irrefl _ hlt
  have hdiff : t.toList.Pairwise fun p q => ζ.data p = ζ.data q → p = q :=
    h.sorted.imp_of_mem fun hp hq hlt heq => absurd heq (hne hp hq hlt)
  have hflip : t.toList.Pairwise (flip fun p q => ζ.data p = ζ.data q → p = q) :=
    h.sorted.imp_of_mem fun hp hq hlt heq => absurd heq.symm (hne hp hq hlt)
  exact List.Pairwise.forall_of_forall_of_flip (fun _ _ _ => rfl) hdiff hflip hp hq heq

theorem Sound.search (h : Sound s B clock ζ t) (data : Bytes) (fuel : Nat) (hfuel : t.toList.length < fuel) :
    ∃ p, Rbtree.search (order ζ (hash data) data) s ζ.nodes fuel ζ.nodes.root = some p ∧
      ((p ∈ t.toList ∧ ζ.data p = data) ∨ (p = s ∧ ∀ q ∈ t.toList, ζ.data q ≠ data)) := by
  have horder : ∀ p ∈ t.toList, order ζ (hash data) data p = cmp (placeOf data) (place ζ p) :=
    fun p hp => order_eq data (h.entry p hp).len
  have hord : Ordered (order ζ (hash data) data) t := by
    refine h.sorted.imp_of_mem fun hp hq hlt => ?_
    rw [horder _ hp, horder _ hq, cmp_eq_lt_iff, cmp_eq_lt_iff, cmp_eq_gt_iff, cmp_eq_gt_iff]
    exact ⟨fun h => h.trans hlt, fun h => hlt.trans h⟩
  have heq : ∀ p ∈ t.toList, order ζ (hash data) data p = .eq ↔ ζ.data p = data := by
    intro p hp
    rw [horder p hp, cmp_eq_eq_iff, (h.entry p hp).place_eq]
    exact ⟨fun h => (placeOf_injective h).symm, fun h => by rw [h]⟩
  obtain ⟨p, hrun, hp⟩ := search_spec (order ζ (hash data) data) fuel h.valid hord hfuel
  refine ⟨p, hrun, ?_⟩
  rcases hp with ⟨hmem, ho⟩ | ⟨hs, hnone⟩
  · exact .inl ⟨hmem, (heq p hmem).mp ho⟩
  · exact .inr ⟨hs, fun q hq hdata => hnone q hq ((heq q hq).mpr hdata)⟩

-- Nothing but the fields of the listed nodes matters.
theorem Sound.congr {ζ' : Zone} {clock' : Nat} (h : Sound s B clock ζ t) (hnodes : ζ'.nodes = ζ.nodes)
    (hkey : ζ'.key = ζ.key) (hdata : ζ'.data = ζ.data) (hqueue : ζ'.queue.Perm ζ.queue)
    (hentry : ∀ p ∈ t.toList, Entry B clock' ζ' p) : Sound s B clock' ζ' t := by
  refine ⟨hnodes ▸ h.valid, ?_, hqueue.trans h.queue, hentry⟩
  refine h.sorted.imp fun hlt => ?_
  simp only [place, hkey, hdata] at hlt ⊢
  exact hlt

theorem Sound.clock_le {clock' : Nat} (h : Sound s B clock ζ t) (hle : clock ≤ clock') :
    Sound s B clock' ζ t := by
  refine h.congr rfl rfl rfl (List.Perm.refl _) fun p hp => ?_
  obtain ⟨hkey, hlen, hexcess, hlast⟩ := h.entry p hp
  exact ⟨hkey, hlen, hexcess, Nat.le_trans hlast hle⟩

-- One deletion from the tail of the queue.
theorem remove_sound (fuel : Nat) (h : Sound s B clock ζ t) (hq : ζ.queue.getLast? = some q)
    (hfuel : t.toList.length < fuel) :
    ∃ H t', Rbtree.delete fuel s ζ.nodes q = some H ∧ t'.toList.length < t.toList.length ∧
      Sound s B clock { ζ with nodes := H, key := put ζ.key q 0, queue := ζ.queue.dropLast } t' := by
  have hsplit : ζ.queue.dropLast ++ [q] = ζ.queue := List.dropLast_append_getLast? q hq
  have hmem : q ∈ t.toList := by
    rw [← h.queue.mem_iff, ← hsplit]
    simp
  obtain ⟨H, t', ls, rs, hrun, hvalid, hlist, hlist', -⟩ := delete_spec fuel h.valid hmem hfuel
  have hnodup := h.valid.distinct.nodup
  rw [hlist, List.nodup_middle, List.nodup_cons] at hnodup
  have hsub : t'.toList.Sublist t.toList := by
    rw [hlist, hlist']
    exact (List.sublist_cons_self q rs).append_left ls
  have hne : ∀ p ∈ t'.toList, p ≠ q := by
    intro p hp heq
    exact hnodup.1 (by rw [← hlist', ← heq]; exact hp)
  refine ⟨H, t', hrun, ?_, hvalid, ?_, ?_, fun p hp => ?_⟩
  · simp only [hlist, hlist', List.length_append, List.length_cons]
    omega
  · refine (h.sorted.sublist hsub).imp_of_mem fun hp hp' hlt => ?_
    simpa [place, put, hne _ hp, hne _ hp'] using hlt
  · have hperm : (q :: ζ.queue.dropLast).Perm (q :: (ls ++ rs)) := by
      refine (List.perm_append_singleton q ζ.queue.dropLast).symm.trans ?_
      rw [hsplit]
      refine h.queue.trans ?_
      rw [hlist]
      exact List.perm_middle
    rw [hlist']
    exact hperm.cons_inv
  · obtain ⟨hkey, hlen, hexcess, hlast⟩ := h.entry p (hsub.subset hp)
    exact ⟨by simpa [put, hne p hp] using hkey, hlen, hexcess, hlast⟩

theorem expire_spec (fuel rate now k : Nat) (hk : k ≤ 2) (h : Sound s B clock ζ t)
    (hfuel : t.toList.length < fuel) :
    ∃ ζ' t', expire fuel s rate now k ζ = some ζ' ∧ Sound s B clock ζ' t' ∧
      t'.toList.length ≤ t.toList.length ∧ ζ'.data = ζ.data ∧ ζ'.excess = ζ.excess ∧ ζ'.last = ζ.last ∧
      ζ'.queue.Sublist ζ.queue ∧ ∀ p ∈ ζ.queue, p ∉ ζ'.queue → stale rate now ζ p = true := by
  induction k generalizing ζ t with
  | zero =>
      exact ⟨ζ, t, rfl, h, Nat.le_refl _, rfl, rfl, rfl, List.Sublist.refl _, fun p hp hn => absurd hp hn⟩
  | succ k ih =>
      rw [expire]
      cases hq : ζ.queue.getLast? with
      | none =>
          exact ⟨ζ, t, rfl, h, Nat.le_refl _, rfl, rfl, rfl, List.Sublist.refl _, fun p hp hn => absurd hp hn⟩
      | some q =>
          have hk2 : k ≠ 2 := by omega
          cases hstale : stale rate now ζ q with
          | false =>
              refine ⟨ζ, t, by simp [hk2, hstale], h, Nat.le_refl _, rfl, rfl, rfl, List.Sublist.refl _, ?_⟩
              exact fun p hp hn => absurd hp hn
          | true =>
              obtain ⟨H, t₁, hdelete, hlt, h₁⟩ := remove_sound fuel h hq hfuel
              obtain ⟨ζ', t', hrun, h', hle, hdata, hexcess, hlast, hsub, hrest⟩ := ih (by omega) h₁ (by omega)
              refine ⟨ζ', t', by simp [hstale, hdelete, hrun], h', by omega, hdata, hexcess, hlast,
                hsub.trans (List.dropLast_sublist _), fun p hp hn => ?_⟩
              by_cases hpq : p = q
              · rw [hpq]
                exact hstale
              · have hsplit : ζ.queue.dropLast ++ [q] = ζ.queue := List.dropLast_append_getLast? q hq
                rw [← hsplit, List.mem_append, List.mem_singleton] at hp
                exact hrest p (hp.resolve_right hpq) hn

end Nginx.LimitReq
