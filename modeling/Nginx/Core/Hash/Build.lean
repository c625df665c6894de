import Nginx.Core.Hash.Layout

namespace Nginx.Hash

open ByteMemory

-- The storage of a bucket and its address, with the elements at elts.
def storageOf (cacheline size : Nat) (names : List Key) (i : Nat) : Nat :=
  alignCounter cacheline (toShort (8 + bucketSum size i names))

def bucketAt (cacheline size elts : Nat) (names : List Key) (i : Nat) : Nat :=
  if i < size ∧ storageOf cacheline size names i ≠ 8 then
    align elts cacheline + before (storageOf cacheline size names) i
  else 0

-- Every bucket's counter, with the last pointer and aligned, is less than 2^16.
def Roomy (cacheline size : Nat) (names : List Key) : Prop :=
  ∀ i < size, bucketSum size i names ≠ 0 → align (8 + bucketSum size i names) cacheline < 2 ^ 16

variable {cacheline size elts i j : Nat} {names : List Key} {name : Key}

theorem storageOf_empty (h : bucketSum size i names = 0) : storageOf cacheline size names i = 8 := by
  rw [storageOf, h]
  rfl

theorem bucketAt_empty (h : bucketSum size i names = 0) : bucketAt cacheline size elts names i = 0 := by
  rw [bucketAt, if_neg]
  intro hstorage
  exact hstorage.2 (storageOf_empty h)

theorem dvd_storageOf (hcache : CachelineSize cacheline) (h : storageOf cacheline size names i ≠ 8) :
    cacheline ∣ storageOf cacheline size names i := by
  obtain ⟨-, hdvd, -⟩ := hcache.dvd
  unfold storageOf alignCounter at h ⊢
  split
  · rename_i h8
    rw [if_pos h8] at h
    exact absurd h8 h
  · exact (Nat.dvd_mod_iff hdvd).mpr (dvd_align _ _)

-- No two buckets share storage, whatever their counters say.
theorem bucketAt_apart (hij : i < j) (hi : bucketAt cacheline size elts names i ≠ 0)
    (hj : bucketAt cacheline size elts names j ≠ 0) :
    bucketAt cacheline size elts names i + storageOf cacheline size names i ≤ bucketAt cacheline size elts names j := by
  unfold bucketAt at hi hj ⊢
  split at hi
  · rename_i hi'
    split at hj
    · rename_i hj'
      rw [if_pos hi', if_pos hj', Nat.add_assoc]
      exact Nat.add_le_add_left (before_le _ hij hi'.2) _
    · exact absurd rfl hj
  · exact absurd rfl hi

section

variable (hcache : CachelineSize cacheline) (helts : elts ≠ 0) (hroomy : Roomy cacheline size names)

include hcache hroomy

theorem Roomy.sum_lt (hi : i < size) : 8 + bucketSum size i names < 2 ^ 16 := by
  by_cases hsum : bucketSum size i names = 0
  · omega
  · have hlt := hroomy i hi hsum
    have hle := le_align (8 + bucketSum size i names) cacheline hcache.dvd.2.2
    omega

theorem Roomy.storage (hi : i < size) (hsum : bucketSum size i names ≠ 0) :
    storageOf cacheline size names i ≠ 8 ∧ 8 + bucketSum size i names ≤ storageOf cacheline size names i := by
  have hlt := hroomy i hi hsum
  have hle := le_align (8 + bucketSum size i names) cacheline hcache.dvd.2.2
  have hstorage : storageOf cacheline size names i = align (8 + bucketSum size i names) cacheline := by
    rw [storageOf, alignCounter, toShort, Nat.mod_eq_of_lt (by omega), if_neg (by omega), toShort, Nat.mod_eq_of_lt hlt]
  rw [hstorage]
  omega

include helts in
theorem Roomy.bucket (hi : i < size) (hsum : bucketSum size i names ≠ 0) :
    bucketAt cacheline size elts names i ≠ 0 ∧ 8 ∣ bucketAt cacheline size elts names i := by
  obtain ⟨h8, -, hpos⟩ := hcache.dvd
  have hle := le_align elts cacheline hpos
  rw [bucketAt, if_pos ⟨hi, (hroomy.storage hcache hi hsum).1⟩]
  refine ⟨by omega, Nat.dvd_add (Nat.dvd_trans h8 (dvd_align _ _)) ?_⟩
  exact dvd_before (fun k hk => Nat.dvd_trans h8 (dvd_storageOf hcache hk)) i

include helts in
-- Two pieces of the buckets, with their last pointers, do not meet.
theorem Roomy.apart {o l o' l' : Nat} (hi : i < size) (hj : j < size) (hsum : bucketSum size i names ≠ 0)
    (hsum' : bucketSum size j names ≠ 0) (hin : o + l ≤ 8 + bucketSum size i names)
    (hin' : o' + l' ≤ 8 + bucketSum size j names) (hsame : i = j → o + l ≤ o' ∨ o' + l' ≤ o) :
    bucketAt cacheline size elts names i + o + l ≤ bucketAt cacheline size elts names j + o' ∨
      bucketAt cacheline size elts names j + o' + l' ≤ bucketAt cacheline size elts names i + o := by
  obtain ⟨-, hle⟩ := hroomy.storage hcache hi hsum
  obtain ⟨-, hle'⟩ := hroomy.storage hcache hj hsum'
  obtain ⟨hne, -⟩ := hroomy.bucket hcache helts hi hsum
  obtain ⟨hne', -⟩ := hroomy.bucket hcache helts hj hsum'
  rcases Nat.lt_trichotomy i j with hlt | rfl | hlt
  · have hapart := bucketAt_apart hlt hne hne'
    omega
  · have hoff := hsame rfl
    omega
  · have hapart := bucketAt_apart hlt hne' hne
    omega

end

-- Where the code puts a name behind some others, in a bucket with room.
def place (cacheline size elts : Nat) (names pre : List Key) (name : Key) : Nat :=
  bucketAt cacheline size elts names (name.keyHash % size) + bucketSum size (name.keyHash % size) pre

def Written (cacheline size elts : Nat) (names : List Key) (mem : Memory) (pre : List Key) : Prop :=
  ∀ a n b, pre = a ++ n :: b → n.null = false → Holds mem (place cacheline size elts names a n) (eltBytes n)

theorem eltBytes_length (name : Key) : (eltBytes name).length = 10 + name.data.length := by
  simp only [eltBytes, List.length_append, encode_length, List.length_map]
  omega

theorem bucketSum_pos_of_mem (hnull : name.null = false) (a b : List Key) :
    bucketSum size (name.keyHash % size) (a ++ name :: b) ≠ 0 := by
  have hsplit := @bucketSum_split size name hnull a b
  have hpos := (eltSize_bounds name).1
  omega

theorem writeNames_written (hcache : CachelineSize cacheline) (helts : elts ≠ 0) (hroomy : Roomy cacheline size names)
    (hsize : 0 < size) (pre rest : List Key) (hnames : names = pre ++ rest) (mem : Memory)
    (hpre : Written cacheline size elts names mem pre) :
    Written cacheline size elts names
      (writeNames size (bucketAt cacheline size elts names) rest (fun j => toShort (bucketSum size j pre)) mem).2.2
      names := by
  induction rest generalizing pre mem with
  | nil =>
      rw [List.append_nil] at hnames
      rw [← hnames] at hpre
      exact hpre
  | cons n rest ih =>
      have happ : names = (pre ++ [n]) ++ rest := by rw [hnames]; simp
      rw [writeNames]
      by_cases hnull : n.null = true
      · simp only [hnull, if_true]
        have hnext := ih (pre ++ [n]) happ mem (by
          intro a m b hsplit hm
          rcases List.eq_nil_or_concat b with rfl | ⟨b, last, rfl⟩
          · obtain ⟨-, hlast⟩ := List.append_inj' hsplit rfl
            cases hlast
            rw [hnull] at hm
            cases hm
          · rw [List.concat_eq_append, ← List.cons_append, ← List.append_assoc] at hsplit
            exact hpre a m b (List.append_inj' hsplit rfl).1 hm)
        simp only [bucketSum_null hnull] at hnext
        exact hnext
      · rw [Bool.not_eq_true] at hnull
        simp only [hnull, Bool.false_eq_true, if_false, update_toShort]
        have hlt := hroomy.sum_lt hcache (Nat.mod_lt n.keyHash hsize)
        have hsum : bucketSum size (n.keyHash % size) pre + eltSize n ≤ bucketSum size (n.keyHash % size) names := by
          rw [hnames]
          exact bucketSum_split hnull pre rest
        have hshort : toShort (bucketSum size (n.keyHash % size) pre) = bucketSum size (n.keyHash % size) pre :=
          Nat.mod_eq_of_lt (by omega)
        have hnext := ih (pre ++ [n]) happ
          (store mem (place cacheline size elts names pre n) (eltBytes n)) (by
            intro a m b hsplit hm
            rcases List.eq_nil_or_concat b with rfl | ⟨b, last, rfl⟩
            · obtain ⟨hpre, hlast⟩ := List.append_inj' hsplit rfl
              cases hlast
              rw [hpre]
              exact holds_store _ _ _
            · rw [List.concat_eq_append, ← List.cons_append, ← List.append_assoc] at hsplit
              obtain ⟨hsplit, -⟩ := List.append_inj' hsplit rfl
              have hm_names : names = a ++ m :: (b ++ n :: rest) := by rw [hnames, hsplit]; simp
              have hm_sum : bucketSum size (m.keyHash % size) a + eltSize m ≤ bucketSum size (m.keyHash % size) pre := by
                rw [hsplit]
                exact bucketSum_split hm a b
              have hm_le : bucketSum size (m.keyHash % size) pre ≤ bucketSum size (m.keyHash % size) names := by
                rw [hnames, bucketSum_append]
                exact Nat.le_add_right _ _
              have helt := (eltSize_bounds m).1
              have helt' := (eltSize_bounds n).1
              refine (hpre a m b hsplit hm).store _ ?_
              rw [eltBytes_length, eltBytes_length]
              refine hroomy.apart hcache helts (Nat.mod_lt _ hsize) (Nat.mod_lt _ hsize) ?_ ?_ (by omega) (by omega) ?_
              · rw [hm_names]
                exact bucketSum_pos_of_mem hm _ _
              · rw [hnames]
                exact bucketSum_pos_of_mem hnull _ _
              · intro heq
                rw [heq] at hm_sum ⊢
                omega)
        simp only [bucketSum_concat hnull] at hnext
        rw [hshort]
        exact hnext

end Nginx.Hash
