import Nginx.Core.RadixTree.Operations

namespace Nginx.RadixTree

open LinkedTree LinkedTree.Linked

-- The mask of 32 bits whose k lowest ones are clear.
def maskOf (k : Nat) : Nat := 2 ^ 32 - 2 ^ k

theorem maskOf_testBit (k n : Nat) (hk : k ≤ 32) : (maskOf k).testBit n = (decide (k ≤ n) && decide (n < 32)) := by
  have hpos : 0 < 2 ^ k := Nat.two_pow_pos k
  have hle : 2 ^ k ≤ 2 ^ 32 := Nat.pow_le_pow_right (by decide) hk
  have hsub : maskOf k = 2 ^ 32 - (2 ^ k - 1 + 1) := by
    rw [maskOf]
    omega
  rw [hsub, Nat.testBit_two_pow_sub_succ (by omega), Nat.testBit_two_pow_sub_one]
  by_cases h : k ≤ n <;> simp [h]
  omega

theorem maskOf_clears (k : Nat) (hk : k ≤ 32) : Clears (maskOf k) k := by
  intro n hn
  simp [maskOf_testBit k n hk, hn]

-- mask >>= 1; mask |= 0x80000000;
theorem maskOf_pred (k : Nat) (hk : k ≤ 32) : maskOf k / 2 ||| 2 ^ 31 = maskOf (k - 1) := by
  revert k
  decide

theorem masked_eq_iff (key key' k : Nat) (hk : k ≤ 32) :
    key &&& maskOf k = key' &&& maskOf k ↔ ∀ n, k ≤ n → n < 32 → key.testBit n = key'.testBit n := by
  constructor
  · intro h n hn hlt
    have hbit := congrArg (fun m => Nat.testBit m n) h
    simpa [maskOf_testBit k n hk, hn, hlt] using hbit
  · intro h
    refine Nat.eq_of_testBit_eq fun n => ?_
    rw [Nat.testBit_and, Nat.testBit_and, maskOf_testBit k n hk]
    by_cases hn : k ≤ n ∧ n < 32
    · rw [h n hn.1 hn.2]
    · have hout : (decide (k ≤ n) && decide (n < 32)) = false := by simpa using hn
      rw [hout, Bool.and_false, Bool.and_false]

theorem side_eq_iff (key key' n : Nat) : side key n = side key' n ↔ key.testBit n = key'.testBit n := by
  rw [side, side]
  cases key.testBit n <;> cases key'.testBit n <;> decide

theorem route_eq_iff (key key' k n : Nat) :
    route key k n = route key' k n ↔ ∀ j, k ≤ j → j < n → key.testBit j = key'.testBit j := by
  induction n with
  | zero => simp [route]
  | succ n ih =>
      by_cases hk : k ≤ n
      · rw [route_succ key k n hk, route_succ key' k n hk, List.cons.injEq, ih, side_eq_iff]
        constructor
        · rintro ⟨hn, hrest⟩ j hj hlt
          by_cases hjn : j = n
          · rw [hjn]
            exact hn
          · exact hrest j hj (by omega)
        · intro h
          exact ⟨h n hk (by omega), fun j hj hlt => h j hj (by omega)⟩
      · have hlen : n + 1 - k = 0 := by omega
        simp only [route, hlen, List.take_zero, true_iff]
        intro j hj hlt
        omega

theorem entryPath_eq_iff (key key' k k' : Nat) (hk : k ≤ 32) (hk' : k' ≤ 32) :
    entryPath key k = entryPath key' k' ↔ key &&& maskOf k = key' &&& maskOf k' ∧ maskOf k = maskOf k' := by
  have hmask : maskOf k = maskOf k' ↔ k = k' := by
    constructor
    · intro h
      have hle : 2 ^ k ≤ 2 ^ 32 := Nat.pow_le_pow_right (by decide) hk
      have hle' : 2 ^ k' ≤ 2 ^ 32 := Nat.pow_le_pow_right (by decide) hk'
      rw [maskOf, maskOf] at h
      exact Nat.pow_right_injective (Nat.le_refl 2) (show 2 ^ k = 2 ^ k' by omega)
    · exact congrArg maskOf
  rw [hmask]
  constructor
  · intro h
    have hlen := congrArg List.length h
    rw [entryPath, entryPath, route_length, route_length] at hlen
    obtain rfl : k = k' := by omega
    exact ⟨(masked_eq_iff key key' k hk).mpr ((route_eq_iff key key' k 32).mp h), rfl⟩
  · rintro ⟨hkey, heq⟩
    subst heq
    exact (route_eq_iff key key' k 32).mpr ((masked_eq_iff key key' k hk).mp hkey)

variable {pool : Pool} {H : Heap Nat} {T : Radix} {t : Linked Nat} {fs : List (Frame Nat)}

theorem findLoop_spec (key : Nat) (fuel n v : Nat) (h : Focus H 0 fs t) (hnull : 0 ∉ t.toList)
    (hdepth : t.depth ≤ n + 1) (hfuel : t.depth < fuel) :
    findLoop H key fuel n (t.ptr 0) v = some (t.longest noValue (digits key n) v) := by
  induction fuel generalizing fs t n v with
  | zero => omega
  | succ fuel ih =>
      by_cases ht : t = nil
      · subst ht
        rw [findLoop, ptr_nil, if_pos rfl]
        cases digits key n <;> rfl
      · cases n with
        | zero =>
            obtain ⟨p, a, l, r, rfl⟩ := eq_branch .left t ht
            rw [depth_branch] at hdepth hfuel
            have hp : p ≠ 0 := fun heq => hnull (by simp [heq])
            have hlabel : H.label p = a := h.label_eq
            have hread : H.child .left p = l.ptr 0 := h.child_eq
            have hl : l = nil := by
              cases l with
              | nil => rfl
              | node => simp [depth] at hdepth
            have hr : r = nil := by
              cases r with
              | nil => rfl
              | node => simp [depth] at hdepth
            subst hl hr
            have hdown := ih (n := 0) (v := if a = noValue then v else a) ((focus_down .left p a nil nil fs).mp h)
              (by simp) (by simp [depth]) (by omega)
            rw [findLoop, ptr_branch, if_neg hp]
            simp only [hlabel, hread, ne_eq, ite_not, if_true]
            exact hdown
        | succ n =>
            obtain ⟨p, a, u, w, rfl⟩ := eq_branch (side key n) t ht
            rw [depth_branch] at hdepth hfuel
            have hp : p ≠ 0 := fun heq => hnull (by simp [heq])
            have hlabel : H.label p = a := h.label_eq
            have hread : H.child (side key n) p = u.ptr 0 := h.child_eq
            simp only [mem_toList_branch, not_or] at hnull
            have hdown := ih (n := n) (v := if a = noValue then v else a)
              ((focus_down (side key n) p a u w fs).mp h) hnull.2.1 (by omega) (by omega)
            rw [findLoop, ptr_branch, if_neg hp]
            simp only [hlabel, ne_eq, ite_not, Nat.succ_ne_zero, if_false, Nat.add_sub_cancel, hread]
            rw [hdown, digits]
            cases side key n <;> rfl

theorem find_spec (fuel key : Nat) (h : Rep pool T t) (hfuel : 34 ≤ fuel) :
    find fuel T key = some (t.longest noValue (digits key 32) noValue) := by
  have hdepth := h.depth
  rw [find, h.focus.root_eq]
  exact findLoop_spec key fuel 32 noValue h.focus h.distinct.null h.depth (by omega)

-- The entries of a tree, from a masked key and a mask to a value.
abbrev Entries := Nat → Nat → Option Nat

def Entries.empty : Entries := fun _ _ => none

def Entries.write (M : Entries) (key mask : Nat) (v : Option Nat) : Entries :=
  fun key' mask' => if key' = key &&& mask ∧ mask' = mask then v else M key' mask'

inductive Op where
  | insert (key mask value : Nat)
  | delete (key mask : Nat)

-- What the operations do to the entries.
def Entries.step (M : Entries) : Op → Rc × Entries
  | .insert key mask value =>
      if (M (key &&& mask) mask).isSome then (.busy, M) else (.ok, M.write key mask (some value))
  | .delete key mask =>
      if (M (key &&& mask) mask).isSome then (.ok, M.write key mask none) else (.error, M)

def Entries.run : Entries → List Op → List Rc × Entries
  | M, [] => ([], M)
  | M, op :: ops =>
      let (rc, M) := M.step op
      let (rcs, M) := Entries.run M ops
      (rc :: rcs, M)

-- The value of the entry with the longest mask that matches a key.
def Entries.lookup (M : Entries) (key : Nat) : Nat :=
  ((List.range 33).findSome? fun k => M (key &&& maskOf k) (maskOf k)).getD noValue

-- Contiguous masks, and values that are not NGX_RADIX_NO_VALUE.
def Op.Allowed : Op → Prop
  | .insert _ mask value => (∃ k ≤ 32, mask = maskOf k) ∧ value ≠ noValue
  | .delete _ mask => ∃ k ≤ 32, mask = maskOf k

def step (pool : Pool) (fuel : Nat) (T : Radix) : Op → Option (Rc × Radix)
  | .insert key mask value => insert pool T key mask value
  | .delete key mask => delete fuel T key mask

def run (pool : Pool) (fuel : Nat) : Radix → List Op → Option (List Rc × Radix)
  | T, [] => some ([], T)
  | T, op :: ops => do
      let (rc, T) ← step pool fuel T op
      let (rcs, T) ← run pool fuel T ops
      return (rc :: rcs, T)

def Op.Prunable (T : Radix) : Op → Prop
  | .insert _ _ _ => True
  | .delete key mask => RadixTree.Prunable T key mask

instance (T : Radix) : (op : Op) → Decidable (op.Prunable T)
  | .insert _ _ _ => inferInstanceAs (Decidable True)
  | .delete key mask => inferInstanceAs (Decidable (RadixTree.Prunable T key mask))

-- No delete of a run starts the loop at the root or at a node without a value.
def Meets (pool : Pool) (fuel : Nat) : Radix → List Op → Prop
  | _, [] => True
  | T, op :: ops => op.Prunable T ∧ ∀ rc T', step pool fuel T op = some (rc, T') → Meets pool fuel T' ops

structure Refines (pool : Pool) (T : Radix) (t : Linked Nat) (M : Entries) : Prop where
  rep : Rep pool T t
  value : ∀ key k, k ≤ 32 → t.value noValue (entryPath key k) = M (key &&& maskOf k) (maskOf k)

variable {M : Entries} {t' : Linked Nat} {T' : Radix}

theorem Refines.write (h : Refines pool T t M) (h' : Rep pool T' t') (key k : Nat) (hk : k ≤ 32) (v : Option Nat)
    (hvalue : ∀ q, t'.value noValue q = if q = entryPath key k then v else t.value noValue q) :
    Refines pool T' t' (M.write key (maskOf k) v) := by
  refine ⟨h', fun key' k' hk' => ?_⟩
  rw [hvalue, Entries.write, h.value key' k' hk']
  simp only [entryPath_eq_iff key' key k' k hk' hk]

theorem step_refines (hpool : pool.Sound) (fuel : Nat) (op : Op) (hop : op.Allowed) (h : Refines pool T t M)
    (hprune : op.Prunable T) (hfuel : 32 ≤ fuel) :
    ∃ T' t', step pool fuel T op = some ((M.step op).1, T') ∧ Refines pool T' t' (M.step op).2 := by
  cases op with
  | insert key mask value =>
      obtain ⟨⟨k, hk, rfl⟩, hvalue⟩ := hop
      have hins := insert_spec key hpool (maskOf_clears k hk) hk value h.rep
      rw [h.value key k hk] at hins
      cases hM : M (key &&& maskOf k) (maskOf k) with
      | none =>
          rw [hM] at hins
          obtain ⟨T', t', hrun, h', hupdate⟩ := hins
          refine ⟨T', t', by simp [step, Entries.step, hM, hrun], ?_⟩
          simp only [Entries.step, hM, Option.isSome_none, Bool.false_eq_true, if_false]
          rw [if_neg hvalue] at hupdate
          exact h.write h' key k hk (some value) hupdate
      | some v =>
          rw [hM] at hins
          exact ⟨T, t, by simpa [step, Entries.step, hM] using hins, by simpa [Entries.step, hM] using h⟩
  | delete key mask =>
      obtain ⟨k, hk, rfl⟩ := hop
      have hdel := delete_spec fuel (maskOf_clears k hk) hk h.rep hprune hfuel
      rw [h.value key k hk] at hdel
      cases hM : M (key &&& maskOf k) (maskOf k) with
      | none =>
          rw [hM] at hdel
          exact ⟨T, t, by simpa [step, Entries.step, hM] using hdel, by simpa [Entries.step, hM] using h⟩
      | some v =>
          rw [hM] at hdel
          obtain ⟨T', t', hrun, h', hupdate⟩ := hdel
          refine ⟨T', t', by simp [step, Entries.step, hM, hrun], ?_⟩
          simp only [Entries.step, hM, Option.isSome_some, if_true]
          exact h.write h' key k hk none hupdate

theorem run_refines (hpool : pool.Sound) (fuel : Nat) (ops : List Op) (hops : ∀ op ∈ ops, op.Allowed)
    (h : Refines pool T t M) (hmeets : Meets pool fuel T ops) (hfuel : 32 ≤ fuel) :
    ∃ T' t', run pool fuel T ops = some ((M.run ops).1, T') ∧ Refines pool T' t' (M.run ops).2 := by
  induction ops generalizing T t M with
  | nil => exact ⟨T, t, rfl, h⟩
  | cons op ops ih =>
      obtain ⟨hprune, hrest⟩ := hmeets
      obtain ⟨T₁, t₁, hstep, h₁⟩ := step_refines hpool fuel op (hops op (by simp)) h hprune hfuel
      obtain ⟨T', t', hrun, h'⟩ := ih (fun o ho => hops o (by simp [ho])) h₁ (hrest _ _ hstep)
      exact ⟨T', t', by simp [run, hstep, hrun, Entries.run], h'⟩

theorem findSome_range {β : Type} (f : Nat → Option β) (n k : Nat) (v : β) (hk : k < n) (hf : f k = some v)
    (hbelow : ∀ j < k, f j = none) : (List.range n).findSome? f = some v := by
  induction n with
  | zero => omega
  | succ n ih =>
      rw [List.range_succ, List.findSome?_append]
      by_cases hkn : k = n
      · have hnone : (List.range n).findSome? f = none := by
          rw [List.findSome?_eq_none_iff]
          intro j hj
          exact hbelow j (by simpa [hkn] using hj)
        subst hkn
        simp [hnone, hf]
      · rw [ih (by omega)]
        rfl

theorem entryPath_eq_take (key n : Nat) (hn : n ≤ 32) : (digits key 32).take n = entryPath key (32 - n) := by
  rw [entryPath, route]
  congr 1
  omega

-- The longest prefix of a key in the tree is the entry with the longest mask.
theorem lookup_eq_longest (h : Refines pool T t M) (key : Nat) :
    M.lookup key = t.longest noValue (digits key 32) noValue := by
  have hvalue : ∀ k ≤ 32, M (key &&& maskOf k) (maskOf k) = t.value noValue ((digits key 32).take (32 - k)) := by
    intro k hk
    rw [entryPath_eq_take key (32 - k) (by omega), Nat.sub_sub_self hk, h.value key k hk]
  rw [Entries.lookup]
  have hlongest := longest_spec noValue t (digits key 32) noValue
  rcases hlongest with ⟨n, hn, hsome, hnone⟩ | ⟨hv, hnone⟩
  · rw [digits_length] at hn hnone
    rw [findSome_range _ 33 (32 - n) _ (by omega) (by rw [hvalue _ (by omega), Nat.sub_sub_self hn, hsome])]
    · rfl
    · intro j hj
      rw [hvalue j (by omega)]
      exact hnone (32 - j) (by omega) (by omega)
  · rw [digits_length] at hnone
    rw [hv, List.findSome?_eq_none_iff.mpr]
    · rfl
    · intro j hj
      rw [List.mem_range] at hj
      rw [hvalue j (by omega)]
      exact hnone (32 - j) (by omega)

-- A tree without values.
def Bare (pool : Pool) (T : Radix) : Prop := ∃ t, Rep pool T t ∧ ∀ q, t.value noValue q = none

theorem insert_bare (hpool : pool.Sound) (key k : Nat) (hk : k ≤ 32) (h : Bare pool T) :
    ∃ T', insert pool T key (maskOf k) noValue = some (.ok, T') ∧ Bare pool T' := by
  obtain ⟨t, hrep, hnone⟩ := h
  have hins := insert_spec key hpool (maskOf_clears k hk) hk noValue hrep
  rw [hnone] at hins
  obtain ⟨T', t', hrun, h', hvalue⟩ := hins
  refine ⟨T', hrun, t', h', fun q => ?_⟩
  rw [hvalue, hnone]
  simp

-- c + 1 keys are left, or the increment is 0.
theorem fill_spec (hpool : pool.Sound) (k inc : Nat) (hk : k ≤ 32) (fuel c key : Nat) (h : Bare pool T)
    (hkey : key + (c + 1) * inc = 2 ^ 32 ∨ inc = 0 ∧ key = 0) (hfuel : c < fuel) :
    ∃ T', fill pool (maskOf k) inc fuel T key = some (true, T') ∧ Bare pool T' := by
  induction c generalizing T fuel key with
  | zero =>
      obtain ⟨fuel, rfl⟩ : ∃ m, fuel = m + 1 := ⟨fuel - 1, by omega⟩
      obtain ⟨T', hins, h'⟩ := insert_bare hpool key k hk h
      have hend : (key + inc) % 2 ^ 32 = 0 := by omega
      exact ⟨T', by simp only [fill, hins, hend, Option.bind_eq_bind, Option.bind_some, ne_eq, not_true_eq_false,
        if_false, if_true, Option.pure_def], h'⟩
  | succ c ih =>
      obtain ⟨fuel, rfl⟩ : ∃ m, fuel = m + 1 := ⟨fuel - 1, by omega⟩
      obtain ⟨T₁, hins, h₁⟩ := insert_bare hpool key k hk h
      by_cases hend : (key + inc) % 2 ^ 32 = 0
      · exact ⟨T₁, by simp only [fill, hins, hend, Option.bind_eq_bind, Option.bind_some, ne_eq, not_true_eq_false,
          if_false, if_true, Option.pure_def], h₁⟩
      · have hsum : key + inc + (c + 1) * inc = 2 ^ 32 := by
          have hmul : (c + 1 + 1) * inc = (c + 1) * inc + inc := Nat.succ_mul (c + 1) inc
          rcases hkey with hkey | ⟨rfl, rfl⟩ <;> omega
        have hlt : key + inc < 2 ^ 32 := by
          have hpos : 0 < inc := by
            by_contra hzero
            have hinc : inc = 0 := by omega
            subst hinc
            omega
          have hmul : 0 < (c + 1) * inc := Nat.mul_pos (Nat.succ_pos c) hpos
          omega
        obtain ⟨T', hrun, h'⟩ := ih fuel (key + inc) h₁ (.inl hsum) (by omega)
        refine ⟨T', ?_, h'⟩
        rw [Nat.mod_eq_of_lt hlt] at hend
        simp only [fill, hins, Option.bind_eq_bind, Option.bind_some, ne_eq, not_true_eq_false, if_false,
          Nat.mod_eq_of_lt hlt, hend, hrun]

theorem grow_spec (hpool : pool.Sound) (fuel n k inc : Nat) (hk : k ≤ 32) (h : Bare pool T)
    (hinc : inc = 0 ∨ ∃ j ≤ 31, inc = 2 ^ j) (hfuel : 2 ^ 32 ≤ fuel) :
    ∃ T', grow pool fuel n T (maskOf k) inc = some (true, T') ∧ Bare pool T' := by
  induction n generalizing T k inc with
  | zero => exact ⟨T, rfl, h⟩
  | succ n ih =>
      have hcount : ∃ c < fuel, 0 + (c + 1) * inc = 2 ^ 32 ∨ inc = 0 ∧ 0 = 0 := by
        rcases hinc with hzero | ⟨j, hj, hpow⟩
        · exact ⟨0, by omega, .inr ⟨hzero, rfl⟩⟩
        · have hpos : 0 < 2 ^ (32 - j) := Nat.two_pow_pos _
          have hle : 2 ^ (32 - j) ≤ 2 ^ 32 := Nat.pow_le_pow_right (by decide) (by omega)
          refine ⟨2 ^ (32 - j) - 1, by omega, .inl ?_⟩
          rw [hpow, Nat.sub_add_cancel hpos, Nat.zero_add, ← Nat.pow_add]
          congr 1
          omega
      have hhalf : inc / 2 = 0 ∨ ∃ j ≤ 31, inc / 2 = 2 ^ j := by
        rcases hinc with hzero | ⟨j, hj, hpow⟩
        · exact .inl (by omega)
        · cases j with
          | zero => exact .inl (by omega)
          | succ j =>
              refine .inr ⟨j, by omega, ?_⟩
              rw [hpow, Nat.pow_succ]
              omega
      obtain ⟨c, hc, hkey⟩ := hcount
      obtain ⟨T₁, hfill, h₁⟩ := fill_spec hpool (k - 1) inc (by omega) fuel c 0 h hkey hc
      obtain ⟨T', hrun, h'⟩ := ih (k - 1) (inc / 2) (by omega) h₁ hhalf
      exact ⟨T', by simp only [grow, maskOf_pred k hk, hfill, hrun, Option.bind_eq_bind, Option.bind_some, if_true], h'⟩

theorem root_bare (hpool : pool.Sound) (H : Heap Nat) :
    ∃ root T, alloc pool ⟨H, 0, 0, 0, 0⟩ = (root, T) ∧ root ≠ 0 ∧
      Bare pool { T with nodes := (initNode T.nodes root 0).setRoot root } := by
  have hempty : Owned pool ⟨H, 0, 0, 0, 0⟩ [] [] := ⟨rfl, by simp, by simp, by simp, .inl ⟨rfl, rfl⟩⟩
  obtain ⟨root, T, l, halloc, -, hne, howned⟩ := alloc_spec hpool hempty
  refine ⟨root, T, halloc, hne, branch .left root noValue nil nil, ⟨?_, branch_ne_nil _ _ _ _ _, ?_, ?_, l, ?_⟩,
    fun q => by simp [value_leaf]⟩
  · refine ⟨by simp [Hole], ?_, fun _ => trivial⟩
    rw [links_branch]
    simp [initNode, Dir.flip]
  · simp [initNode]
  · simp [depth]
  · refine howned.write (by simp) fun q hq => ?_
    have hout := howned.mem_free hq
    simp only [List.mem_singleton] at hout
    simp [initNode, hout]

theorem create_spec (hpool : pool.Sound) (fuel : Nat) (H : Heap Nat) (preallocate : Int) (hfuel : 2 ^ 32 ≤ fuel) :
    ∃ T t, create pool fuel H preallocate = some (some T) ∧ Refines pool T t Entries.empty := by
  obtain ⟨root, T₀, halloc, hne, hbare⟩ := root_bare hpool H
  have hmask : maskOf 32 = 0 := by decide
  obtain ⟨T, hgrow, t, hrep, hnone⟩ := grow_spec hpool fuel (rounds pool preallocate) 32 (2 ^ 31) (Nat.le_refl 32)
    hbare (.inr ⟨31, by omega, rfl⟩) hfuel
  rw [hmask] at hgrow
  refine ⟨T, t, ?_, hrep, fun key k _ => hnone _⟩
  simp only [create, halloc, if_neg hne, hgrow, Option.bind_eq_bind, Option.bind_some, if_true, Option.pure_def]

-- A created tree is a prefix map, over every run whose deletes start at nodes with values below the root.
theorem run_longest (hpool : pool.Sound) (fuel : Nat) (H : Heap Nat) (preallocate : Int) (ops : List Op)
    (hops : ∀ op ∈ ops, op.Allowed) (hfuel : 2 ^ 32 ≤ fuel) :
    ∃ T, create pool fuel H preallocate = some (some T) ∧ (Meets pool fuel T ops →
      ∃ T', run pool fuel T ops = some ((Entries.empty.run ops).1, T') ∧
        ∀ key, find fuel T' key = some ((Entries.empty.run ops).2.lookup key)) := by
  obtain ⟨T, t, hcreate, h⟩ := create_spec hpool fuel H preallocate hfuel
  refine ⟨T, hcreate, fun hmeets => ?_⟩
  obtain ⟨T', t', hrun, h'⟩ := run_refines hpool fuel ops hops h hmeets (by omega)
  refine ⟨T', hrun, fun key => ?_⟩
  rw [find_spec fuel key h'.rep (by omega), lookup_eq_longest h' key]

-- Pages one after another.
def pages : Pool := ⟨4096, fun i => some (4096 * (i + 1))⟩

theorem pages_sound : pages.Sound := by
  refine ⟨by decide, fun i => ⟨_, rfl, by simp⟩, ?_⟩
  rintro i j p q hij ⟨⟩ ⟨⟩
  simp only [pages]
  omega

-- Two nested networks, of which the inner one is deleted again.
theorem run_longest_nested :
    ∃ T T', create pages (2 ^ 32) ⟨fun _ _ => 7, fun _ => 7, fun _ => 7, 7⟩ 0 = some (some T) ∧
      run pages (2 ^ 32) T [.insert (2 ^ 31) (maskOf 31) 5, .insert (2 ^ 31) (maskOf 30) 6,
        .delete (2 ^ 31) (maskOf 30)] = some ([.ok, .ok, .ok], T') ∧
      find (2 ^ 32) T' (2 ^ 31) = some 5 := by
  obtain ⟨T, hcreate, h⟩ := run_longest pages_sound (2 ^ 32) ⟨fun _ _ => 7, fun _ => 7, fun _ => 7, 7⟩ 0
    [.insert (2 ^ 31) (maskOf 31) 5, .insert (2 ^ 31) (maskOf 30) 6, .delete (2 ^ 31) (maskOf 30)]
    (by
      intro op hop
      simp only [List.mem_cons, List.not_mem_nil, or_false] at hop
      rcases hop with rfl | rfl | rfl
      · exact ⟨⟨31, by decide, rfl⟩, by decide⟩
      · exact ⟨⟨30, by decide, rfl⟩, by decide⟩
      · exact ⟨30, by decide, rfl⟩) (Nat.le_refl _)
  have hT := Option.some.inj (Option.some.inj hcreate)
  obtain ⟨T', hrun, hfind⟩ := h (by
    refine ⟨trivial, fun rc T₁ h₁ => ⟨trivial, fun rc₂ T₂ h₂ => ⟨?_, fun _ _ _ => trivial⟩⟩⟩
    subst hT
    cases h₁
    cases h₂
    decide)
  exact ⟨T, T', hcreate, hrun, hfind (2 ^ 31)⟩

-- A preallocated tree has no entries, but a delete in it succeeds.
theorem preallocated_deleted :
    ∃ T T', create pages 4 ⟨fun _ _ => 0, fun _ => 0, fun _ => 0, 0⟩ 1 = some (some T) ∧
      run pages 4 T [.delete 0 (maskOf 31)] = some ([.ok], T') ∧
      (Entries.empty.run [.delete 0 (maskOf 31)]).1 = [.error] :=
  ⟨_, _, rfl, rfl, rfl⟩

-- The delete of an entry at the root goes to the parent of the root.
theorem root_deleted :
    ∃ T, create pages 4 ⟨fun _ _ => 0, fun _ => 0, fun _ => 0, 0⟩ 0 = some (some T) ∧
      run pages 4 T [.insert 0 (maskOf 32) 1, .delete 0 (maskOf 32)] = none :=
  ⟨_, rfl, rfl⟩

end Nginx.RadixTree
