import Nginx.Core.Hash

namespace Nginx.Hash

open ByteMemory

-- ngx_cacheline_size is a power of two, 32, 64 or 128 in practice.
def CachelineSize (cacheline : Nat) : Prop := ∃ k, 3 ≤ k ∧ k ≤ 15 ∧ cacheline = 2 ^ k

theorem CachelineSize.dvd {cacheline : Nat} (h : CachelineSize cacheline) :
    8 ∣ cacheline ∧ cacheline ∣ 2 ^ 16 ∧ 0 < cacheline := by
  obtain ⟨k, hk, hk', rfl⟩ := h
  exact ⟨pow_dvd_pow 2 hk, pow_dvd_pow 2 (by omega), Nat.two_pow_pos k⟩

theorem le_align (d a : Nat) (ha : 0 < a) : d ≤ align d a := by
  have hdiv := Nat.div_add_mod (d + (a - 1)) a
  have hmod := Nat.mod_lt (d + (a - 1)) ha
  rw [align, Nat.mul_comm]
  omega

theorem align_lt (d a : Nat) (ha : 0 < a) : align d a < d + a := by
  have hdiv := Nat.div_add_mod (d + (a - 1)) a
  rw [align, Nat.mul_comm]
  omega

theorem dvd_align (d a : Nat) : a ∣ align d a := Dvd.intro_left _ rfl

theorem eltSize_bounds (name : Key) :
    10 + name.data.length ≤ eltSize name ∧ eltSize name < 10 + name.data.length + 8 ∧ 8 ∣ eltSize name := by
  have hle := le_align (name.data.length + 2) 8 (by decide)
  have hlt := align_lt (name.data.length + 2) 8 (by decide)
  have hdvd := dvd_align (name.data.length + 2) 8
  unfold eltSize
  refine ⟨by omega, by omega, by omega⟩

-- What the elements of the names in a bucket take.
def bucketSum (size i : Nat) : List Key → Nat
  | [] => 0
  | name :: names =>
      (if name.null = false ∧ name.keyHash % size = i then eltSize name else 0) + bucketSum size i names

variable {size i : Nat} {names rest : List Key} {name : Key}

theorem bucketSum_append (size i : Nat) (names rest : List Key) :
    bucketSum size i (names ++ rest) = bucketSum size i names + bucketSum size i rest := by
  induction names with
  | nil => simp [bucketSum]
  | cons name names ih =>
      rw [List.cons_append, bucketSum, bucketSum, ih]
      omega

theorem bucketSum_dvd (size i : Nat) (names : List Key) : 8 ∣ bucketSum size i names := by
  induction names with
  | nil => simp [bucketSum]
  | cons name names ih =>
      have helt := (eltSize_bounds name).2.2
      rw [bucketSum]
      split <;> omega

-- One more name adds to its own bucket.
theorem bucketSum_concat (hnull : name.null = false) :
    bucketSum size i (names ++ [name]) =
      bucketSum size i names + if name.keyHash % size = i then eltSize name else 0 := by
  rw [bucketSum_append]
  simp [bucketSum, hnull]

theorem bucketSum_null (hnull : name.null = true) :
    bucketSum size i (names ++ [name]) = bucketSum size i names := by
  rw [bucketSum_append]
  simp [bucketSum, hnull]

theorem bucketSum_split (hnull : name.null = false) (pre post : List Key) :
    bucketSum size (name.keyHash % size) pre + eltSize name ≤
      bucketSum size (name.keyHash % size) (pre ++ name :: post) := by
  rw [bucketSum_append, bucketSum]
  simp [hnull]

theorem exists_of_bucketSum (h : bucketSum size i names ≠ 0) :
    ∃ pre name post, names = pre ++ name :: post ∧ name.null = false ∧ name.keyHash % size = i := by
  induction names with
  | nil => simp [bucketSum] at h
  | cons name names ih =>
      by_cases hname : name.null = false ∧ name.keyHash % size = i
      · exact ⟨[], name, names, rfl, hname⟩
      · rw [bucketSum, if_neg hname, Nat.zero_add] at h
        obtain ⟨pre, other, post, heq, hother⟩ := ih h
        exact ⟨name :: pre, other, post, by rw [heq]; rfl, hother⟩

-- The element that takes a bucket over a bound.
theorem exists_crossing {bound : Nat} (hpre : bucketSum size i names < bound)
    (h : bound ≤ bucketSum size i (names ++ rest)) :
    ∃ pre name post, names ++ rest = pre ++ name :: post ∧ name.null = false ∧ name.keyHash % size = i ∧
      bucketSum size i pre < bound ∧ bound ≤ bucketSum size i pre + eltSize name := by
  induction rest generalizing names with
  | nil =>
      rw [List.append_nil] at h
      omega
  | cons name rest ih =>
      by_cases hlt : bucketSum size i (names ++ [name]) < bound
      · have h' : bound ≤ bucketSum size i ((names ++ [name]) ++ rest) := by simpa using h
        obtain ⟨pre, other, post, heq, hother⟩ := ih hlt h'
        exact ⟨pre, other, post, by rw [← heq]; simp, hother⟩
      · have hname : name.null = false ∧ name.keyHash % size = i := by
          by_contra hname
          rw [bucketSum_append, bucketSum, if_neg hname] at hlt
          simp only [bucketSum] at hlt
          omega
        rw [bucketSum_concat hname.1, if_pos hname.2] at hlt
        exact ⟨names, name, rest, rfl, hname.1, hname.2, hpre, by omega⟩

theorem exists_first_crossing {bound : Nat} (size i : Nat) (names : List Key) (hpos : 0 < bound)
    (h : bound ≤ bucketSum size i names) :
    ∃ pre name post, names = pre ++ name :: post ∧ name.null = false ∧ name.keyHash % size = i ∧
      bucketSum size i pre < bound ∧ bound ≤ bucketSum size i pre + eltSize name :=
  @exists_crossing size i [] names bound hpos h

theorem update_toShort (t : Nat → Nat) (i n : Nat) :
    update (fun j => toShort (t j)) i (toShort (toShort (t i) + n)) =
      fun j => toShort (t j + if i = j then n else 0) := by
  funext j
  unfold update
  by_cases hji : j = i
  · subst hji
    rw [if_pos rfl, if_pos rfl]
    unfold toShort
    omega
  · rw [if_neg hji, if_neg (Ne.symm hji), Nat.add_zero]

theorem countNames_eq (size : Nat) (names : List Key) (t : Nat → Nat) :
    countNames size names (fun j => toShort (t j)) = fun j => toShort (t j + bucketSum size j names) := by
  induction names generalizing t with
  | nil => rfl
  | cons name names ih =>
      rw [countNames]
      by_cases hnull : name.null = true
      · simp only [hnull, if_true, ih, bucketSum, Bool.true_eq_false, false_and, if_false, Nat.zero_add]
      · rw [Bool.not_eq_true] at hnull
        simp only [hnull, Bool.false_eq_true, if_false, update_toShort, ih, bucketSum, true_and, Nat.add_assoc]

-- The storage in front of a bucket.
def before (test : Nat → Nat) : Nat → Nat
  | 0 => 0
  | i + 1 => before test i + if test i = 8 then 0 else test i

theorem placeBuckets_eq (test : Nat → Nat) (n i elts : Nat) (buckets : Nat → Nat) (j : Nat) :
    placeBuckets test n i (elts + before test i) buckets j =
      if i ≤ j ∧ j < i + n ∧ test j ≠ 8 then elts + before test j else buckets j := by
  induction n generalizing i buckets with
  | zero => rw [placeBuckets, if_neg (by omega)]
  | succ n ih =>
      have hnext : before test (i + 1) = before test i + if test i = 8 then 0 else test i := rfl
      rw [placeBuckets]
      by_cases h8 : test i = 8
      · have hsame : before test (i + 1) = before test i := by rw [hnext, if_pos h8]; rfl
        rw [if_pos h8, ← hsame, ih]
        by_cases hj : j = i
        · subst hj
          rw [if_neg (by omega), if_neg (by tauto)]
        · simp only [show (i + 1 ≤ j ∧ j < i + 1 + n ∧ test j ≠ 8) ↔ (i ≤ j ∧ j < i + (n + 1) ∧ test j ≠ 8) by omega]
      · rw [if_neg h8] at hnext
        rw [if_neg h8, Nat.add_assoc, ← hnext, ih]
        by_cases hj : j = i
        · subst hj
          rw [if_neg (by omega), if_pos ⟨Nat.le_refl j, by omega, h8⟩, update, if_pos rfl]
        · simp only [update, if_neg hj,
            show (i + 1 ≤ j ∧ j < i + 1 + n ∧ test j ≠ 8) ↔ (i ≤ j ∧ j < i + (n + 1) ∧ test j ≠ 8) by omega]

theorem before_le (test : Nat → Nat) {i j : Nat} (hij : i < j) (h8 : test i ≠ 8) :
    before test i + test i ≤ before test j := by
  induction j with
  | zero => omega
  | succ j ih =>
      rw [before]
      by_cases heq : i = j
      · subst heq
        rw [if_neg h8]
      · have hle := ih (by omega)
        omega

theorem dvd_before {test : Nat → Nat} {a : Nat} (h : ∀ i, test i ≠ 8 → a ∣ test i) (i : Nat) :
    a ∣ before test i := by
  induction i with
  | zero => exact Nat.dvd_zero a
  | succ i ih =>
      rw [before]
      split
      · exact ih
      · rename_i h8
        exact Nat.dvd_add ih (h i h8)

-- The places that the elements are written to.
def places (size : Nat) (buckets : Nat → Nat) : List Key → List Key → List (Nat × Key)
  | _, [] => []
  | pre, name :: rest =>
      if name.null then places size buckets (pre ++ [name]) rest
      else
        (buckets (name.keyHash % size) + toShort (bucketSum size (name.keyHash % size) pre), name) ::
          places size buckets (pre ++ [name]) rest

theorem mem_places {buckets : Nat → Nat} (names rest : List Key) (elt : Nat) (name : Key) :
    (elt, name) ∈ places size buckets names rest ↔
      ∃ pre post, rest = pre ++ name :: post ∧ name.null = false ∧
        elt = buckets (name.keyHash % size) + toShort (bucketSum size (name.keyHash % size) (names ++ pre)) := by
  induction rest generalizing names with
  | nil => simp [places]
  | cons first rest ih =>
      have htail : (∃ pre post, rest = pre ++ name :: post ∧ name.null = false ∧
          elt = buckets (name.keyHash % size) +
            toShort (bucketSum size (name.keyHash % size) ((names ++ [first]) ++ pre))) ↔
          ∃ pre post, first :: rest = (first :: pre) ++ name :: post ∧ name.null = false ∧
            elt = buckets (name.keyHash % size) +
              toShort (bucketSum size (name.keyHash % size) (names ++ first :: pre)) := by
        simp only [List.append_assoc, List.cons_append, List.nil_append, List.cons.injEq, true_and]
      rw [places]
      constructor
      · intro h
        by_cases hnull : first.null = true
        · rw [if_pos hnull, ih] at h
          obtain ⟨pre, post, hsplit⟩ := htail.mp h
          exact ⟨first :: pre, post, hsplit⟩
        · rw [if_neg hnull, List.mem_cons, Prod.mk.injEq] at h
          rcases h with ⟨helt, rfl⟩ | h
          · exact ⟨[], rest, rfl, by simpa using hnull, by simpa using helt⟩
          · obtain ⟨pre, post, hsplit⟩ := htail.mp ((ih _).mp h)
            exact ⟨first :: pre, post, hsplit⟩
      · rintro ⟨pre, post, heq, hnull, helt⟩
        cases pre with
        | nil =>
            obtain ⟨rfl, rfl⟩ := List.cons.inj heq
            rw [if_neg (by simp [hnull]), helt]
            simp
        | cons other pre =>
            obtain ⟨rfl, hrest⟩ := List.cons.inj heq
            have hmem := (ih (names ++ [first])).mpr (htail.mpr ⟨pre, post, heq, hnull, helt⟩)
            split
            · exact hmem
            · exact List.mem_cons_of_mem _ hmem

theorem places_names (buckets : Nat → Nat) (names rest : List Key) :
    (places size buckets names rest).map Prod.snd = rest.filter fun name => !name.null := by
  induction rest generalizing names with
  | nil => rfl
  | cons name rest ih =>
      rw [places]
      cases hnull : name.null with
      | true => simp [hnull, ih]
      | false => simp [hnull, ih]

theorem writeNames_places (size : Nat) (buckets : Nat → Nat) (pre rest : List Key) (mem : Memory) :
    (writeNames size buckets rest (fun j => toShort (bucketSum size j pre)) mem).1 = places size buckets pre rest ∧
      (writeNames size buckets rest (fun j => toShort (bucketSum size j pre)) mem).2.1 =
        fun j => toShort (bucketSum size j (pre ++ rest)) := by
  induction rest generalizing pre mem with
  | nil => simp [writeNames, places]
  | cons name rest ih =>
      have happ : pre ++ name :: rest = (pre ++ [name]) ++ rest := by simp
      rw [writeNames, places, happ]
      by_cases hnull : name.null = true
      · simp only [hnull, if_true]
        have h := ih (pre ++ [name]) mem
        simp only [bucketSum_null hnull] at h
        exact h
      · rw [Bool.not_eq_true] at hnull
        simp only [hnull, Bool.false_eq_true, if_false, update_toShort]
        have h := ih (pre ++ [name])
          (store mem (buckets (name.keyHash % size) + toShort (bucketSum size (name.keyHash % size) pre)) (eltBytes name))
        simp only [bucketSum_concat hnull] at h
        exact ⟨by rw [h.1], h.2⟩

end Nginx.Hash
