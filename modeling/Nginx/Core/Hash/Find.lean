import Nginx.Core.Hash.Build

namespace Nginx.Hash

open ByteMemory

variable {cacheline size elts i : Nat} {names : List Key} {mem : Memory}

theorem terminate_holds {buckets test : Nat → Nat} {a : Nat} {bs : Bytes} (n i : Nat) (hmem : Holds mem a bs)
    (hdisj : ∀ j, i ≤ j → j < i + n → buckets j ≠ 0 →
      a + bs.length ≤ buckets j + test j ∨ buckets j + test j + 8 ≤ a) :
    Holds (terminate buckets test n i mem) a bs := by
  induction n generalizing i mem with
  | zero => exact hmem
  | succ n ih =>
      have hrest : ∀ j, i + 1 ≤ j → j < i + 1 + n → buckets j ≠ 0 →
          a + bs.length ≤ buckets j + test j ∨ buckets j + test j + 8 ≤ a :=
        fun j hj hj' => hdisj j (by omega) (by omega)
      rw [terminate]
      split
      · exact ih (i + 1) hmem hrest
      · rename_i hne
        refine ih (i + 1) (hmem.store _ ?_) hrest
        rw [encode_length]
        exact hdisj i (Nat.le_refl i) (by omega) hne

theorem terminate_ends {buckets test : Nat → Nat} (n i : Nat) (j : Nat) (hij : i ≤ j) (hj : j < i + n)
    (hne : buckets j ≠ 0)
    (hdisj : ∀ k, j < k → k < i + n → buckets k ≠ 0 →
      buckets j + test j + 8 ≤ buckets k + test k ∨ buckets k + test k + 8 ≤ buckets j + test j) :
    Holds (terminate buckets test n i mem) (buckets j + test j) (encode 8 0) := by
  induction n generalizing i mem with
  | zero => omega
  | succ n ih =>
      rw [terminate]
      by_cases heq : i = j
      · subst heq
        rw [if_neg hne]
        refine terminate_holds n (i + 1) (holds_store _ _ _) ?_
        intro k hk hk' hnek
        rw [encode_length]
        exact hdisj k (by omega) (by omega) hnek
      · have hdisj' : ∀ k, j < k → k < i + 1 + n → buckets k ≠ 0 →
            buckets j + test j + 8 ≤ buckets k + test k ∨ buckets k + test k + 8 ≤ buckets j + test j :=
          fun k hk hk' => hdisj k hk (by omega)
        split
        · exact ih (i + 1) (by omega) (by omega) hdisj'
        · exact ih (i + 1) (by omega) (by omega) hdisj'

-- The memory behind ngx_hash_init in a table with room.
structure Filled (cacheline size elts : Nat) (names : List Key) (mem : Memory) : Prop where
  written : Written cacheline size elts names mem names
  ends : ∀ i < size, bucketSum size i names ≠ 0 →
    Holds mem (bucketAt cacheline size elts names i + bucketSum size i names) (encode 8 0)

theorem bucketAt_ne (h : bucketAt cacheline size elts names i ≠ 0) : i < size ∧ bucketSum size i names ≠ 0 := by
  refine ⟨?_, fun hsum => h (bucketAt_empty hsum)⟩
  unfold bucketAt at h
  split at h
  · rename_i hi
    exact hi.1
  · exact absurd rfl h

theorem filled (hcache : CachelineSize cacheline) (helts : elts ≠ 0) (hroomy : Roomy cacheline size names)
    (hsize : 0 < size) (mem : Memory) :
    Filled cacheline size elts names
      (terminate (bucketAt cacheline size elts names) (fun j => toShort (bucketSum size j names)) size 0
        (writeNames size (bucketAt cacheline size elts names) names (fun _ => 0) mem).2.2) := by
  have hshort : ∀ j < size, toShort (bucketSum size j names) = bucketSum size j names := by
    intro j hj
    have hlt := hroomy.sum_lt hcache hj
    exact Nat.mod_eq_of_lt (by omega)
  have hwritten := writeNames_written hcache helts hroomy hsize [] names rfl mem (by
    intro a n b hsplit
    simp at hsplit)
  constructor
  · intro a n b hsplit hnull
    have hsum : bucketSum size (n.keyHash % size) names ≠ 0 := by
      rw [hsplit]
      exact bucketSum_pos_of_mem hnull a b
    have hle : bucketSum size (n.keyHash % size) a + eltSize n ≤ bucketSum size (n.keyHash % size) names := by
      rw [hsplit]
      exact bucketSum_split hnull a b
    have helt := (eltSize_bounds n).1
    refine terminate_holds size 0 (hwritten a n b hsplit hnull) ?_
    intro j _ hj hne
    obtain ⟨-, hsum'⟩ := bucketAt_ne hne
    rw [hshort j (by omega), eltBytes_length]
    refine hroomy.apart hcache helts (Nat.mod_lt _ hsize) (by omega) hsum hsum' (by omega) (by omega) ?_
    intro heq
    rw [← heq]
    omega
  · intro j hj hsum
    have hne := (hroomy.bucket hcache helts hj hsum).1
    have hends : Holds (terminate (bucketAt cacheline size elts names) (fun j => toShort (bucketSum size j names))
        size 0 (writeNames size (bucketAt cacheline size elts names) names (fun _ => 0) mem).2.2)
        (bucketAt cacheline size elts names j + toShort (bucketSum size j names)) (encode 8 0) := by
      apply terminate_ends size 0 j (Nat.zero_le j) (by omega) hne
      intro k hk hk' hne'
      obtain ⟨-, hsum'⟩ := bucketAt_ne hne'
      simp only [hshort j hj, hshort k (by omega)]
      exact hroomy.apart hcache helts hj (by omega) hsum hsum' (by omega) (by omega) (by omega)
    simp only [hshort j hj] at hends
    exact hends

-- The value of the first name in the bucket.
def stored (size i : Nat) (key : Bytes) : List Key → Nat
  | [] => 0
  | name :: names =>
      if name.null = false ∧ name.keyHash % size = i ∧ name.data.map tolower = key then name.value
      else stored size i key names

structure Keys (names : List Key) : Prop where
  distinct : ((names.filter fun name => !name.null).map Key.data).Nodup
  lower : ∀ name ∈ names, name.null = false → name.data.map tolower = name.data
  value : ∀ name ∈ names, name.null = false → name.value ≠ 0 ∧ name.value < 2 ^ 64
  keyHash : ∀ name ∈ names, name.null = false → name.keyHash = hashKey name.data

-- What ngx_hash_find reads at an element.
theorem load_elt {elt : Nat} {name : Key} (h : Holds mem elt (eltBytes name)) (hvalue : name.value < 2 ^ 64)
    (hlen : name.data.length < 2 ^ 16) :
    decode (load mem elt 8) = name.value ∧ decode (load mem (elt + 8) 2) = name.data.length ∧
      load mem (elt + 10) name.data.length = name.data.map tolower := by
  rw [eltBytes, holds_append, holds_append] at h
  obtain ⟨hv, hl, hn⟩ := h
  simp only [Holds, encode_length, List.length_map, Nat.add_assoc, Nat.reduceAdd] at hv hl hn
  refine ⟨?_, ?_, hn⟩
  · rw [hv]
    exact decode_encode 8 _ (by omega)
  · rw [hl, toShort, Nat.mod_eq_of_lt hlen]
    exact decode_encode 2 _ (by omega)

theorem align_next {elt len : Nat} (hdvd : 8 ∣ elt) : align (elt + 10 + len) 8 = elt + (8 + align (len + 2) 8) := by
  unfold align
  omega

theorem findElt_stored (hcache : CachelineSize cacheline) (helts : elts ≠ 0) (hroomy : Roomy cacheline size names)
    (hkeys : Keys names) (hfilled : Filled cacheline size elts names mem) (hi : i < size)
    (hsum : bucketSum size i names ≠ 0) (key : Bytes) (pre rest : List Key) (hnames : names = pre ++ rest)
    (fuel : Nat) (hfuel : rest.length < fuel) :
    findElt mem key fuel (bucketAt cacheline size elts names i + bucketSum size i pre) =
      some (stored size i key rest) := by
  induction rest generalizing pre fuel with
  | nil =>
      obtain ⟨fuel, rfl⟩ := Nat.exists_eq_succ_of_ne_zero (n := fuel) (by omega)
      have hends := hfilled.ends i hi hsum
      rw [Holds, encode_length] at hends
      rw [List.append_nil] at hnames
      rw [← hnames, findElt, hends]
      rfl
  | cons name rest ih =>
      have happ : names = (pre ++ [name]) ++ rest := by rw [hnames]; simp
      have hmem : name ∈ names := by rw [hnames]; simp
      rw [stored]
      by_cases hnull : name.null = true
      · have hnext := ih (pre ++ [name]) happ fuel (by rw [List.length_cons] at hfuel; omega)
        rw [bucketSum_null hnull] at hnext
        rw [hnext, if_neg (by simp [hnull])]
      · rw [Bool.not_eq_true] at hnull
        by_cases hkey : name.keyHash % size = i
        · obtain ⟨fuel, rfl⟩ := Nat.exists_eq_succ_of_ne_zero (n := fuel) (by omega)
          have hnext := ih (pre ++ [name]) happ fuel (by rw [List.length_cons] at hfuel; omega)
          rw [bucketSum_concat hnull, if_pos hkey] at hnext
          have hle : bucketSum size i pre + eltSize name ≤ bucketSum size i names := by
            rw [hnames, ← hkey]
            exact bucketSum_split hnull pre rest
          have hlt := hroomy.sum_lt hcache hi
          have helt := (eltSize_bounds name).1
          obtain ⟨hne, hvalue⟩ := hkeys.value name hmem hnull
          have hholds := hfilled.written pre name rest hnames hnull
          rw [place, hkey] at hholds
          obtain ⟨hv, hl, hn⟩ := load_elt hholds hvalue (by omega)
          have hdvd : 8 ∣ bucketAt cacheline size elts names i + bucketSum size i pre :=
            Nat.dvd_add (hroomy.bucket hcache helts hi hsum).2 (bucketSum_dvd size i pre)
          rw [findElt]
          simp only [hv, hl, hn, if_neg hne]
          by_cases hdata : name.data.map tolower = key
          · have hlen : key.length = name.data.length := by rw [← hdata, List.length_map]
            rw [if_pos ⟨hlen, hdata⟩, if_pos ⟨hnull, hkey, hdata⟩]
          · rw [if_neg fun hboth => hdata hboth.2, if_neg fun hall => hdata hall.2.2, align_next hdvd, Nat.add_assoc]
            exact hnext
        · have hnext := ih (pre ++ [name]) happ fuel (by rw [List.length_cons] at hfuel; omega)
          rw [bucketSum_concat hnull, if_neg hkey, Nat.add_zero] at hnext
          rw [hnext, if_neg fun hall => hkey hall.2.1]

theorem stored_of_empty (h : bucketSum size i names = 0) (key : Bytes) : stored size i key names = 0 := by
  induction names with
  | nil => rfl
  | cons name names ih =>
      rw [bucketSum] at h
      have hpos := (eltSize_bounds name).1
      rw [stored, if_neg, ih (by omega)]
      rintro ⟨hnull, hkey, -⟩
      rw [if_pos ⟨hnull, hkey⟩] at h
      omega

theorem stored_of_mem (hkeys : Keys names) {name : Key} (hname : name ∈ names) (hnull : name.null = false) :
    stored size (hashKey name.data % size) name.data names = name.value := by
  induction names with
  | nil => cases hname
  | cons first names ih =>
      have htail : Keys names := by
        refine ⟨?_, fun n hn => hkeys.lower n (List.mem_cons_of_mem _ hn),
          fun n hn => hkeys.value n (List.mem_cons_of_mem _ hn), fun n hn => hkeys.keyHash n (List.mem_cons_of_mem _ hn)⟩
        have hdistinct := hkeys.distinct
        rw [List.filter_cons] at hdistinct
        split at hdistinct
        · exact (List.nodup_cons.mp hdistinct).2
        · exact hdistinct
      rw [stored]
      rcases List.mem_cons.mp hname with rfl | hname
      · rw [if_pos ⟨hnull, by rw [hkeys.keyHash _ (by simp) hnull], hkeys.lower _ (by simp) hnull⟩]
      · rw [if_neg, ih htail hname]
        rintro ⟨hnull', -, hdata⟩
        rw [hkeys.lower first (by simp) hnull'] at hdata
        have hdistinct := hkeys.distinct
        rw [List.filter_cons, if_pos (by simp [hnull']), List.map_cons, List.nodup_cons] at hdistinct
        apply hdistinct.1
        rw [hdata]
        exact List.mem_map_of_mem (List.mem_filter.mpr ⟨hname, by simp [hnull]⟩)

theorem stored_of_not_mem (hkeys : Keys names) {key : Bytes}
    (h : ∀ name ∈ names, name.null = false → name.data ≠ key) : stored size i key names = 0 := by
  have hnone : ∀ rest, (∀ n ∈ rest, n ∈ names) → stored size i key rest = 0 := by
    intro rest hrest
    induction rest with
    | nil => rfl
    | cons name rest ih =>
        rw [stored, if_neg, ih fun n hn => hrest n (List.mem_cons_of_mem _ hn)]
        rintro ⟨hnull, -, hdata⟩
        have hmem := hrest name (by simp)
        rw [hkeys.lower name hmem hnull] at hdata
        exact h name hmem hnull hdata
  exact hnone names fun n hn => hn

end Nginx.Hash
