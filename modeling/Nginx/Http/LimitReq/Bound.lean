import Nginx.Http.LimitReq
import Nginx.Library.LeakyBucket

namespace Nginx.LimitReq

open LinkedTree Rbtree LeakyBucket

-- The entry of a key is a leaky bucket.
def law (rate B : Nat) : Law where
  rate := rate
  unit := 1000
  cost := 1000
  burst := B
  horizon := 60000

def BucketOf (ζ : Zone) (k : Bytes) : Option Bucket → Prop
  | none => ∀ p ∈ ζ.queue, ζ.data p ≠ k
  | some x => ∃ p ∈ ζ.queue, ζ.data p = k ∧ ζ.excess p = x.level ∧ ζ.last p = x.last

variable {s : Ptr} {B clock now : Nat} {ζ ζ' : Zone} {t : Linked Bool} {data : Bytes}

section Arithmetic

theorem elapsed_le (now last : Nat) (h : last ≤ now) : elapsed now last ≤ now - last := by
  unfold elapsed toInt64
  rw [Int.bmod_def]
  split <;> omega

theorem toSize_natCast_le (n : Nat) : toSize n ≤ n := by
  unfold toSize
  omega

theorem leak_le (rate ms dt : Nat) (h : ms ≤ dt) : leak rate ms ≤ (law rate B).drained dt := by
  have hle : toSize (rate * ms : Nat) ≤ rate * dt :=
    Nat.le_trans (toSize_natCast_le _) (Nat.mul_le_mul_left rate h)
  have hcast : toSize ((rate : Int) * ms) = toSize (rate * ms : Nat) :=
    congrArg toSize (Int.natCast_mul rate ms).symm
  rw [leak, hcast]
  exact Nat.div_le_div_right hle

theorem leak_lt (rate ms : Nat) : leak rate ms < 2 ^ 63 := by
  unfold leak toSize
  omega

-- The wrapped unsigned arithmetic never lets more drain than the law does.
theorem newExcess_spec (rate now excess last : Nat) (hB : B + 1000 < 2 ^ 63) (he : excess ≤ B) (hlast : last ≤ now) :
    excess + 1000 ≤ newExcess rate now excess last + (law rate B).drained (now - last) := by
  have hleak := leak_le (B := B) rate _ _ (elapsed_le now last hlast)
  have hlt := leak_lt rate (elapsed now last)
  have hrange := toInt64_of_range ((excess : Int) - leak rate (elapsed now last) + 1000) (by omega) (by omega)
  rw [newExcess, hrange]
  omega

end Arithmetic

-- What one request does to the buckets: that of its own key is filled if it is admitted.
def Serves (law : Law) (now : Nat) (data : Bytes) (adm : Bool) (ζ ζ' : Zone) : Prop :=
  ∀ k b, BucketOf ζ k b →
    if adm = true ∧ k = data then ∃ x, Filled law now b x ∧ BucketOf ζ' k (some x) else BucketOf ζ' k b

-- Updates at one node p leave the buckets of other keys alone.
theorem bucketOf_congr {k : Bytes} {b : Option Bucket} {p : Ptr} (h : BucketOf ζ k b)
    (hqueue : ∀ q, q ≠ p → (q ∈ ζ'.queue ↔ q ∈ ζ.queue))
    (hsame : ∀ q, q ≠ p → ζ'.data q = ζ.data q ∧ ζ'.excess q = ζ.excess q ∧ ζ'.last q = ζ.last q)
    (hp : p ∈ ζ.queue → ζ.data p ≠ k) (hp' : ζ'.data p ≠ k) : BucketOf ζ' k b := by
  cases b with
  | none =>
      intro q hq
      by_cases hqp : q = p
      · rw [hqp]
        exact hp'
      · rw [(hsame q hqp).1]
        exact h q ((hqueue q hqp).mp hq)
  | some x =>
      obtain ⟨q, hq, hdata, hexcess, hlast⟩ := h
      have hqp : q ≠ p := by
        rintro rfl
        exact hp hq hdata
      obtain ⟨h1, h2, h3⟩ := hsame q hqp
      exact ⟨q, (hqueue q hqp).mpr hq, h1.trans hdata, h2.trans hexcess, h3.trans hlast⟩

-- An entry disappears only when it is old enough.
theorem bucketOf_expire (rate : Nat) {k : Bytes} {b : Option Bucket} (h : Sound s B clock ζ t) (hclock : clock ≤ now)
    (hb : BucketOf ζ k b) (hdata : ζ'.data = ζ.data) (hexcess : ζ'.excess = ζ.excess)
    (hlast : ζ'.last = ζ.last) (hsub : ζ'.queue.Sublist ζ.queue)
    (hstale : ∀ p ∈ ζ.queue, p ∉ ζ'.queue → stale rate now ζ p = true) :
    ∃ b', Kept (law rate B) now b b' ∧ BucketOf ζ' k b' := by
  cases b with
  | none => exact ⟨none, .same none, fun p hp => hdata ▸ hb p (hsub.subset hp)⟩
  | some x =>
      obtain ⟨p, hp, hpk, hpx, hpl⟩ := hb
      by_cases hkeep : p ∈ ζ'.queue
      · refine ⟨some x, .same _, p, hkeep, ?_, ?_, ?_⟩
        · rw [hdata, hpk]
        · rw [hexcess, hpx]
        · rw [hlast, hpl]
      · have hold := hstale p hp hkeep
        simp only [stale, Bool.and_eq_true, decide_eq_true_eq] at hold
        have hentry := (h.entry p (h.queue.mem_iff.mp hp)).last
        have hle := elapsed_le now (ζ.last p) (by omega)
        refine ⟨none, .forgotten x ?_, fun q hq hqk => ?_⟩
        · show x.last + 60000 ≤ now
          omega
        · rw [hdata] at hqk
          have heq := h.unique (hsub.subset hq) hp (hqk.trans hpk.symm)
          exact hkeep (heq ▸ hq)

-- A request whose key has the entry p.
theorem found_spec (rate : Nat) (conf : Conf) (p : Ptr) (h : Sound s B clock ζ t) (hclock : clock ≤ now)
    (hburst : conf.burst ≤ B) (hB : B + 1000 < 2 ^ 63) (hp : p ∈ t.toList) (hdata : ζ.data p = data) :
    let excess := newExcess rate now (ζ.excess p) (ζ.last p)
    let ζ₁ := { ζ with queue := p :: ζ.queue.erase p }
    let ζ₂ := { ζ₁ with excess := put ζ.excess p excess, last := put ζ.last p now }
    Sound s B now ζ₁ t ∧ Serves (law rate B) now data false ζ ζ₁ ∧
      (excess ≤ conf.burst → Sound s B now ζ₂ t ∧ Serves (law rate B) now data true ζ ζ₂) := by
  intro excess ζ₁ ζ₂
  have hpq : p ∈ ζ.queue := h.queue.mem_iff.mpr hp
  have hperm : ζ₁.queue.Perm ζ.queue := (List.perm_cons_erase hpq).symm
  have hsound : Sound s B now ζ₁ t := by
    refine h.congr rfl rfl rfl hperm fun q hq => ?_
    obtain ⟨hkey, hlen, hexcess, hlast⟩ := h.entry q hq
    exact ⟨hkey, hlen, hexcess, Nat.le_trans hlast hclock⟩
  refine ⟨hsound, fun k b hb => ?_, fun hle => ⟨?_, fun k b hb => ?_⟩⟩
  · rw [if_neg (by simp)]
    cases b with
    | none => exact fun q hq => hb q (hperm.mem_iff.mp hq)
    | some x =>
        obtain ⟨q, hq, hrest⟩ := hb
        exact ⟨q, hperm.mem_iff.mpr hq, hrest⟩
  · refine hsound.congr rfl rfl rfl (List.Perm.refl _) fun q hq => ?_
    obtain ⟨hkey, hlen, hexcess, hlast⟩ := hsound.entry q hq
    refine ⟨hkey, hlen, ?_, ?_⟩
    · by_cases hqp : q = p
      · simp only [ζ₂, put, hqp, if_true]
        omega
      · simpa [ζ₂, put, hqp] using hexcess
    · by_cases hqp : q = p
      · simp [ζ₂, put, hqp]
      · simpa [ζ₂, put, hqp] using hlast
  · by_cases hk : k = data
    · rw [if_pos ⟨rfl, hk⟩]
      cases b with
      | none => exact absurd (hdata.trans hk.symm) (hb p hpq)
      | some x =>
          obtain ⟨q, hq, hqk, hqx, hql⟩ := hb
          obtain rfl : q = p := h.unique hq hpq (hqk.trans (hk.trans hdata.symm))
          have hentry := h.entry q hp
          have hlast := hentry.last
          have hspec := newExcess_spec rate now (ζ.excess q) (ζ.last q) hB hentry.excess
            (by omega)
          rw [hqx, hql] at hspec
          refine ⟨⟨excess, now⟩, .more x excess ?_ (Nat.le_trans hle hburst), q, by simp [ζ₂, ζ₁], hqk, ?_, ?_⟩
          · show x.level + 1000 ≤ _
            simp only [excess, hqx, hql]
            exact hspec
          · simp [ζ₂, put]
          · simp [ζ₂, put]
    · rw [if_neg (by simp [hk])]
      refine bucketOf_congr (p := p) hb (fun q _ => hperm.mem_iff) (fun q hq => ?_) ?_ ?_
      · simp [ζ₂, ζ₁, put, hq]
      · exact fun _ heq => hk (heq.symm.trans hdata)
      · exact fun heq => hk (heq.symm.trans hdata)

-- The entry of a new key.
theorem create_spec (rate fuel : Nat) (p : Ptr) (h : Sound s B clock ζ t) (hclock : clock ≤ now)
    (hnew : ∀ q ∈ t.toList, ζ.data q ≠ data) (hlen : data.length ≤ 255) (hp : p ∉ ζ.queue) (hps : p ≠ s)
    (hp0 : p ≠ 0) (hfuel : t.toList.length < fuel) :
    ∃ ζ' t', create fuel s ζ p now (hash data) data = some ζ' ∧ Sound s B now ζ' t' ∧
      t'.toList.length = t.toList.length + 1 ∧ Serves (law rate B) now data true ζ ζ' := by
  have hpt : p ∉ t.toList := h.queue.mem_iff.not.mp hp
  have hmod : data.length % 256 = data.length := Nat.mod_eq_of_lt (by omega)
  let ζ₁ : Zone := { ζ with
    key := put ζ.key p (hash data), len := put ζ.len p (data.length % 256), last := put ζ.last p now,
    excess := put ζ.excess p 0, data := put ζ.data p data }
  have hsame : ∀ q, q ≠ p → ζ₁.key q = ζ.key q ∧ ζ₁.len q = ζ.len q ∧ ζ₁.last q = ζ.last q ∧
      ζ₁.excess q = ζ.excess q ∧ ζ₁.data q = ζ.data q := by
    intro q hq
    simp [ζ₁, put, hq]
  have hne : ∀ q ∈ t.toList, q ≠ p := fun q hq heq => hpt (heq ▸ hq)
  have hentryp : Entry B now ζ₁ p := by
    refine ⟨?_, ?_, ?_, ?_⟩ <;> simp [ζ₁, put, hmod]
  have hentry : ∀ q ∈ t.toList, Entry B now ζ₁ q := by
    intro q hq
    obtain ⟨hkey, hlenq, hexcess, hlast⟩ := h.entry q hq
    obtain ⟨h1, h2, h3, h4, h5⟩ := hsame q (hne q hq)
    refine ⟨?_, ?_, ?_, ?_⟩
    · rw [h1, h5, hkey]
    · rw [h2, h5, hlenq]
    · rw [h4]
      exact hexcess
    · rw [h3]
      omega
  have hplace : ∀ q ∈ t.toList, place ζ₁ q = place ζ q := by
    intro q hq
    obtain ⟨h1, -, -, -, h5⟩ := hsame q (hne q hq)
    rw [place, place, h1, h5]
  have hplacep : place ζ₁ p = placeOf data := by
    rw [hentryp.place_eq]
    simp [ζ₁, put]
  have hdiff : ∀ q ∈ t.toList, place ζ₁ q ≠ place ζ₁ p := by
    intro q hq heq
    rw [hplacep, hplace q hq, (h.entry q hq).place_eq] at heq
    exact hnew q hq (placeOf_injective heq)
  have hsorted : t.toList.Pairwise fun q q' => place ζ₁ q < place ζ₁ q' := by
    refine h.sorted.imp_of_mem fun hq hq' hlt => ?_
    rwa [hplace _ hq, hplace _ hq']
  have hgo : ∀ q ∈ t.toList, goLeft ζ₁ p q = decide (place ζ₁ p < place ζ₁ q) :=
    fun q hq => goLeft_eq hentryp.len (hentry q hq).len
  have hmono : t.toList.Pairwise fun q q' => goLeft ζ₁ p q = true → goLeft ζ₁ p q' = true := by
    refine hsorted.imp_of_mem fun hq hq' hlt => ?_
    rw [hgo _ hq, hgo _ hq', decide_eq_true_eq, decide_eq_true_eq]
    exact fun hpq => hpq.trans hlt
  obtain ⟨H', t', ls, rs, hrun, hvalid, hlist, hlist', hls, hrs, -⟩ :=
    insert_spec (insertValue ζ₁) (goLeft ζ₁ p) fuel p t rfl h.valid hpt hps hp0 hmono hfuel
  have hmem' : ∀ q, q ∈ t'.toList ↔ q = p ∨ q ∈ t.toList := by
    intro q
    rw [hlist, hlist']
    simp only [List.mem_append, List.mem_cons]
    tauto
  refine ⟨{ ζ₁ with nodes := H', queue := p :: ζ.queue }, t', ?_, ⟨hvalid, ?_, ?_, ?_⟩, ?_, fun k b hb => ?_⟩
  · simp only [ζ₁] at hrun
    simp [create, hrun, ζ₁]
  · show t'.toList.Pairwise fun q q' => place ζ₁ q < place ζ₁ q'
    rw [hlist] at hsorted hdiff hgo
    rw [hlist', List.pairwise_append, List.pairwise_cons]
    obtain ⟨hl, hr, hlr⟩ := List.pairwise_append.mp hsorted
    refine ⟨hl, ⟨fun q hq => ?_, hr⟩, fun q hq q' hq' => ?_⟩
    · have hlt := hrs q hq
      rwa [hgo q (List.mem_append_right _ hq), decide_eq_true_eq] at hlt
    · rcases List.mem_cons.mp hq' with rfl | hq'
      · have hnlt := hls q hq
        rw [hgo q (List.mem_append_left _ hq), decide_eq_false_iff_not, not_lt] at hnlt
        exact lt_of_le_of_ne hnlt (hdiff q (List.mem_append_left _ hq))
      · exact hlr q hq q' hq'
  · rw [hlist']
    refine ((h.queue.cons p).trans ?_)
    rw [hlist]
    exact List.perm_middle.symm
  · intro q hq
    rcases (hmem' q).mp hq with rfl | hq
    · exact ⟨hentryp.key, hentryp.len, hentryp.excess, hentryp.last⟩
    · obtain ⟨hkey, hlenq, hexcess, hlast⟩ := hentry q hq
      exact ⟨hkey, hlenq, hexcess, hlast⟩
  · rw [hlist, hlist']
    simp only [List.length_append, List.length_cons]
    omega
  · by_cases hk : k = data
    · rw [if_pos ⟨rfl, hk⟩]
      have hb' : b = none := by
        cases b with
        | none => rfl
        | some x =>
            obtain ⟨q, hq, hqk, -⟩ := hb
            exact absurd (hqk.trans hk) (hnew q (h.queue.mem_iff.mp hq))
      rw [hb']
      exact ⟨⟨0, now⟩, .fresh, p, by simp, by simp [ζ₁, put, hk], by simp [ζ₁, put], by simp [ζ₁, put]⟩
    · rw [if_neg (by simp [hk])]
      refine bucketOf_congr (p := p) hb (fun q hq => by simp [hq]) (fun q hq => ?_) (fun h => absurd h hp) ?_
      · obtain ⟨-, -, h3, h4, h5⟩ := hsame q hq
        exact ⟨h5, h4, h3⟩
      · simpa [ζ₁, put] using Ne.symm hk

-- The requests that count for a key: those that reach the limiter with it and are not refused.
def passes (k : Bytes) (e : Request × Answer) : Bool :=
  (e.1.limited.map (·.2) == some k) && (e.2 != .unavailable)

def passed (k : Bytes) (t₀ T : Nat) (log : List (Request × Answer)) : Nat :=
  log.countP fun e => passes k e && InWindow t₀ T e.1.now

-- The slab allocator finds room beside the live nodes.
def Fresh (s : Ptr) (alloc : List Ptr → Nat → Option Ptr) : Prop :=
  ∀ live n, ∃ p, alloc live n = some p ∧ p ∉ live ∧ p ≠ s ∧ p ≠ 0

-- Neither the length of the key nor the sum of burst and excess overflows its type.
def Fits (B : Nat) (r : Request) : Prop :=
  ∀ conf data, r.limited = some (conf, data) → conf.burst ≤ B ∧ data.length ≤ 255

theorem respond_admits (rate : Nat) (r : Request) (conf : Conf) (excess : Nat) (rc : Rc) (h : rc ≠ .busy) :
    respond rate conf r excess rc ≠ .unavailable := by
  cases rc with
  | busy => exact absurd rfl h
  | declined => simp [respond]
  | ok => simp [respond]
  | again =>
      simp only [respond]
      split_ifs <;> simp

theorem Serves.step {adm : Bool} {k : Bytes} {b b₁ : Option Bucket} {rate : Nat}
    (h : Serves (law rate B) now data adm ζ ζ') (hkept : Kept (law rate B) now b b₁)
    (hb : BucketOf ζ k b₁) :
    ∃ b', Step (law rate B) now (data == k && adm) b b' ∧ BucketOf ζ' k b' := by
  have hserves := h k b₁ hb
  by_cases hadm : adm = true ∧ k = data
  · rw [if_pos hadm] at hserves
    obtain ⟨x, hfilled, hx⟩ := hserves
    rw [hadm.1, hadm.2, beq_self_eq_true, Bool.and_self]
    exact ⟨some x, .admitted hkept hfilled, hadm.2 ▸ hx⟩
  · rw [if_neg hadm] at hserves
    have hfalse : (data == k && adm) = false := by
      rw [Bool.and_eq_false_iff, beq_eq_false_iff_ne]
      cases adm with
      | false => exact .inr rfl
      | true => exact .inl fun heq => hadm ⟨rfl, heq.symm⟩
    rw [hfalse]
    exact ⟨b₁, .idle hkept, hserves⟩

-- Lookup, and for a new key the allocation and the new entry.
theorem serve_spec (fuel rate : Nat) (r : Request) (conf : Conf) (h : Sound s B clock ζ t)
    (hclock : clock ≤ r.now) (hburst : conf.burst ≤ B) (hB : B + 1000 < 2 ^ 63) (hlen : data.length ≤ 255)
    (hfresh : Fresh s r.alloc) (hfuel : t.toList.length < fuel)
    (hexpire : expire fuel s rate r.now 2 ζ₀ = some ζ) :
    ∃ answer ζ' t', limit fuel s rate ζ₀ r conf data = some (answer, ζ') ∧ Sound s B r.now ζ' t' ∧
      t'.toList.length ≤ t.toList.length + 1 ∧
      Serves (law rate B) r.now data (answer != .unavailable) ζ ζ' := by
  obtain ⟨p, hsearch, hp⟩ := h.search data fuel hfuel
  rw [hash] at hsearch
  rcases hp with ⟨hmem, hdata⟩ | ⟨rfl, hnone⟩
  · obtain ⟨hbusy, hserves, hadmit⟩ := found_spec rate conf p h hclock hburst hB hmem hdata
    have hps : p ≠ s := h.valid.distinct.ne_sentinel hmem
    by_cases hover : conf.burst < newExcess rate r.now (ζ.excess p) (ζ.last p)
    · exact ⟨.unavailable, _, t, by simp [limit, hexpire, lookup, hsearch, hps, hover, respond], hbusy,
        by omega, hserves⟩
    · obtain ⟨hsound, hserves⟩ := hadmit (by omega)
      by_cases hzero : newExcess rate r.now (ζ.excess p) (ζ.last p) = 0
      · exact ⟨.declined, _, t, by simp [limit, hexpire, lookup, hsearch, hps, hzero, respond], hzero ▸ hsound,
          by omega, hzero ▸ hserves⟩
      · have hne := respond_admits rate r conf (newExcess rate r.now (ζ.excess p) (ζ.last p)) .again
          (by simp)
        refine ⟨_, _, t, by simp [limit, hexpire, lookup, hsearch, hps, hover, hzero]; rfl, hsound,
          by omega, ?_⟩
        rw [bne_iff_ne.mpr hne]
        exact hserves
  · obtain ⟨node, halloc, hnew, hns, hn0⟩ := hfresh ζ.queue (nodeSize data.length)
    obtain ⟨ζ', t', hcreate, hsound, hlength, hserves⟩ :=
      create_spec rate fuel node h hclock hnone hlen hnew hns hn0 hfuel
    rw [hash] at hcreate
    exact ⟨.declined, ζ', t', by simp [limit, hexpire, lookup, hsearch, allocate, halloc, hcreate], hsound,
      by omega, hserves⟩

theorem limit_spec (fuel rate : Nat) (r : Request) (conf : Conf) (h : Sound s B clock ζ t)
    (hclock : clock ≤ r.now) (hburst : conf.burst ≤ B) (hB : B + 1000 < 2 ^ 63) (hlen : data.length ≤ 255)
    (hfresh : Fresh s r.alloc) (hfuel : t.toList.length < fuel) :
    ∃ answer ζ' t', limit fuel s rate ζ r conf data = some (answer, ζ') ∧ Sound s B r.now ζ' t' ∧
      t'.toList.length ≤ t.toList.length + 1 ∧ ∀ k b, BucketOf ζ k b →
        ∃ b', Step (law rate B) r.now (data == k && answer != .unavailable) b b' ∧ BucketOf ζ' k b' := by
  obtain ⟨ζ₁, t₁, hexpire, h₁, hle, hdata, hexcess, hlast, hsub, hstale⟩ :=
    expire_spec fuel rate r.now 2 (by omega) h hfuel
  obtain ⟨answer, ζ', t', hrun, hsound, hlength, hserves⟩ :=
    serve_spec fuel rate r conf h₁ hclock hburst hB hlen hfresh (by omega) hexpire
  refine ⟨answer, ζ', t', hrun, hsound, by omega, fun k b hb => ?_⟩
  obtain ⟨b₁, hkept, hb₁⟩ := bucketOf_expire rate h hclock hb hdata hexcess hlast hsub hstale
  exact hserves.step hkept hb₁

theorem handler_spec (fuel rate : Nat) (r : Request) (h : Sound s B clock ζ t) (hclock : clock ≤ r.now)
    (hB : B + 1000 < 2 ^ 63) (hfits : Fits B r) (hfresh : Fresh s r.alloc) (hfuel : t.toList.length < fuel) :
    ∃ answer set ζ' t', handler fuel s rate ζ r = some (answer, set, ζ') ∧ Sound s B r.now ζ' t' ∧
      t'.toList.length ≤ t.toList.length + 1 ∧ ∀ k b, BucketOf ζ k b →
        ∃ b', Step (law rate B) r.now (passes k (r, answer)) b b' ∧ BucketOf ζ' k b' := by
  cases hlimited : r.limited with
  | none =>
      refine ⟨.declined, r.limitReqSet, ζ, t, by simp [handler, hlimited], h.clock_le hclock, by omega, ?_⟩
      intro k b hb
      refine ⟨b, ?_, hb⟩
      have hpasses : passes k (r, .declined) = false := by simp [passes, hlimited]
      rw [hpasses]
      exact .idle (.same b)
  | some keyed =>
      obtain ⟨conf, data⟩ := keyed
      obtain ⟨hburst, hlen⟩ := hfits conf data hlimited
      obtain ⟨answer, ζ', t', hrun, hsound, hlength, hstep⟩ :=
        limit_spec fuel rate r conf h hclock hburst hB hlen hfresh hfuel
      refine ⟨answer, true, ζ', t', by simp [handler, hlimited, hrun], hsound, hlength, fun k b hb => ?_⟩
      have hpasses : passes k (r, answer) = (data == k && answer != .unavailable) := by
        simp [passes, hlimited]
      rw [hpasses]
      exact hstep k b hb

-- The zone refines one bucket for every key.
theorem run_spec (fuel rate : Nat) (k : Bytes) (b : Option Bucket) (rs : List Request)
    (h : Sound s B clock ζ t) (hB : B + 1000 < 2 ^ 63) (hsorted : (rs.map Request.now).Pairwise (· ≤ ·))
    (hclock : ∀ r ∈ rs, clock ≤ r.now) (hfits : ∀ r ∈ rs, Fits B r) (hfresh : ∀ r ∈ rs, Fresh s r.alloc)
    (hfuel : t.toList.length + rs.length < fuel) (hb : BucketOf ζ k b) :
    ∃ log ζ', run fuel s rate ζ rs = some (log, ζ') ∧ log.map (·.1) = rs ∧
      Run (law rate B) clock b (log.map fun e => (e.1.now, passes k e)) := by
  induction rs generalizing ζ t clock b with
  | nil => exact ⟨[], ζ, rfl, rfl, .nil clock b⟩
  | cons r rs ih =>
      simp only [List.mem_cons, forall_eq_or_imp, List.map_cons, List.pairwise_cons, List.length_cons,
        List.mem_map, forall_exists_index, and_imp, forall_apply_eq_imp_iff₂] at hsorted hclock hfits hfresh hfuel
      obtain ⟨answer, set, ζ₁, t₁, hhandler, h₁, hlength, hstep⟩ :=
        handler_spec fuel rate r h hclock.1 hB hfits.1 hfresh.1 (by omega)
      obtain ⟨b₁, hs, hb₁⟩ := hstep k b hb
      obtain ⟨log, ζ', hrun, hlog, hrest⟩ := ih b₁ h₁ hsorted.2 hsorted.1 hfits.2 hfresh.2 (by omega) hb₁
      refine ⟨(r, answer) :: log, ζ', by simp [run, hhandler, hrun], by simp [hlog], ?_⟩
      exact .cons _ _ hclock.1 hs hrest

theorem init_sound (hs : s ≠ 0) (ζ : Zone) : Sound s B 0 (initZone s ζ) .nil := by
  refine ⟨⟨⟨rfl, trivial, fun _ => trivial⟩, ⟨by simp, by simp, by simp⟩, ⟨rfl, trivial, 0, rfl⟩, ?_, hs⟩,
    by simp, by simp [initZone], by simp⟩
  simp [initZone]

-- The rate bound, for a zone whose locations have bursts up to B.
theorem passed_bounded (fuel : Nat) (s : Ptr) (rate B : Nat) (ζ : Zone) (rs : List Request) (hs : s ≠ 0)
    (hsorted : (rs.map Request.now).Pairwise (· ≤ ·)) (hfresh : ∀ r ∈ rs, Fresh s r.alloc)
    (hfits : ∀ r ∈ rs, Fits B r) (hB : B + 1000 < 2 ^ 63) (hfuel : rs.length < fuel) :
    ∃ log ζ', run fuel s rate (initZone s ζ) rs = some (log, ζ') ∧ log.map (·.1) = rs ∧
      ∀ k t₀ T, T < 60000 → passed k t₀ T log ≤ 1 + (B + rate * T / 1000) / 1000 := by
  have hrun := fun k => run_spec fuel rate k none rs (init_sound (B := B) hs ζ) hB hsorted
    (fun _ _ => Nat.zero_le _) hfits hfresh (by simpa using hfuel) (by simp [BucketOf, initZone])
  obtain ⟨log, ζ', hlog, hmap, -⟩ := hrun []
  refine ⟨log, ζ', hlog, hmap, fun k t₀ T hT => ?_⟩
  obtain ⟨log', ζ'', hlog', -, hbucket⟩ := hrun k
  obtain ⟨rfl, -⟩ : log = log' ∧ ζ' = ζ'' := by simpa [hlog] using hlog'
  have hbound := admitted_le (show 0 < (law rate B).cost by simp [law]) (by simpa [law] using hT) hbucket t₀
  rw [admitted, List.countP_map] at hbound
  exact hbound

def blank : Zone where
  nodes := ⟨fun _ _ => 0, fun _ => 0, fun _ => false, 0⟩
  key := fun _ => 0
  len := fun _ => 0
  last := fun _ => 0
  excess := fun _ => 0
  data := fun _ => []
  queue := []

-- An allocator that takes an address above the live ones.
def nextFree (live : List Ptr) (_ : Nat) : Option Ptr := some (live.foldr max 1 + 1)

theorem nextFree_fresh : Fresh 1 nextFree := by
  intro live n
  have hmax : 1 ≤ live.foldr max 1 ∧ ∀ p ∈ live, p ≤ live.foldr max 1 := by
    induction live with
    | nil => simp
    | cons q live ih =>
        refine ⟨Nat.le_trans ih.1 (Nat.le_max_right _ _), fun p hp => ?_⟩
        rcases List.mem_cons.mp hp with rfl | hp
        · exact Nat.le_max_left _ _
        · exact Nat.le_trans (ih.2 p hp) (Nat.le_max_right _ _)
  obtain ⟨hone, hle⟩ := hmax
  refine ⟨live.foldr max 1 + 1, rfl, fun hmem => ?_, Nat.ne_of_gt (Nat.succ_lt_succ hone), Nat.succ_ne_zero _⟩
  exact absurd (hle _ hmem) (Nat.not_succ_le_self _)

def request (data : Bytes) (now burst : Nat) : Request where
  limitReqSet := false
  conf := some ⟨burst, true⟩
  value := some data
  now := now
  alloc := nextFree
  readEvent := true

theorem passed_bounded_three :
    ∃ log ζ', run 4 1 1000 (initZone 1 blank) [request [65] 0 2000, request [66] 5 2000, request [65] 9 2000] =
        some (log, ζ') ∧
      log.map (·.1) = [request [65] 0 2000, request [66] 5 2000, request [65] 9 2000] ∧
      ∀ k t₀ T, T < 60000 → passed k t₀ T log ≤ 1 + (2000 + 1000 * T / 1000) / 1000 :=
  passed_bounded 4 1 1000 2000 blank _ (by decide) (by simp [request])
    (by simp [request, nextFree_fresh]) (by simp [Fits, request, Request.limited]) (by decide) (by decide)

-- The length of a key of 256 bytes is stored as 0, and no request finds its entry again.
theorem long_key_passes :
    ∃ log ζ', run 4 1 1000 (initZone 1 blank)
        [request (List.replicate 256 65) 0 0, request (List.replicate 256 65) 0 0] = some (log, ζ') ∧
      ¬ passed (List.replicate 256 65) 0 0 log ≤ 1 + (0 + 1000 * 0 / 1000) / 1000 := by
  have hpassed : (run 4 1 1000 (initZone 1 blank)
      [request (List.replicate 256 65) 0 0, request (List.replicate 256 65) 0 0]).map
      (fun out => passed (List.replicate 256 65) 0 0 out.1) = some 2 := by decide +kernel
  obtain ⟨⟨log, ζ'⟩, hrun, htwo⟩ := Option.map_eq_some_iff.mp hpassed
  exact ⟨log, ζ', hrun, by simp only at htwo; rw [htwo]; decide⟩

end Nginx.LimitReq
