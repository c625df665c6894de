import Nginx.Library.LinkedTree

-- Linked trees as binary tries. A node has a value unless its label is the blank one.
namespace LinkedTree

open Linked

variable {α : Type _}

namespace Linked

section

variable [DecidableEq α] (blank : α)

def depth : Linked α → Nat
  | nil => 0
  | node _ _ l r => max l.depth r.depth + 1

def value : Linked α → List Dir → Option α
  | nil, _ => none
  | node _ a _ _, [] => if a = blank then none else some a
  | node _ _ l _, .left :: path => l.value path
  | node _ _ _ r, .right :: path => r.value path

-- The last value on a path, or v.
def longest : Linked α → List Dir → α → α
  | nil, _, v => v
  | node _ a _ _, [], v => if a = blank then v else a
  | node _ a l _, .left :: path, v => l.longest path (if a = blank then v else a)
  | node _ a _ r, .right :: path, v => r.longest path (if a = blank then v else a)

end

@[simp] theorem depth_branch (d : Dir) (p : Ptr) (a : α) (t u : Linked α) :
    (branch d p a t u).depth = max t.depth u.depth + 1 := by
  cases d
  · rfl
  · simp only [branch, depth, Nat.max_comm]

variable [DecidableEq α] {blank : α}

@[simp] theorem value_nil (path : List Dir) : (nil : Linked α).value blank path = none := by
  cases path <;> rfl

@[simp] theorem value_branch_nil (d : Dir) (p : Ptr) (a : α) (t u : Linked α) :
    (branch d p a t u).value blank [] = if a = blank then none else some a := by
  cases d <;> rfl

theorem value_branch_cons (d e : Dir) (p : Ptr) (a : α) (t u : Linked α) (path : List Dir) :
    (branch d p a t u).value blank (e :: path) = if e = d then t.value blank path else u.value blank path := by
  cases d <;> cases e <;> rfl

theorem value_leaf (d : Dir) (p : Ptr) (a : α) (path : List Dir) :
    (branch d p a nil nil).value blank path = if path = [] ∧ a ≠ blank then some a else none := by
  cases path with
  | nil => by_cases ha : a = blank <;> simp [ha]
  | cons e path => simp [value_branch_cons]

-- The value at the longest prefix of a path that has one, or v.
def IsLongest (blank : α) (t : Linked α) (path : List Dir) (v r : α) : Prop :=
  (∃ n ≤ path.length, t.value blank (path.take n) = some r ∧
    ∀ m, n < m → m ≤ path.length → t.value blank (path.take m) = none) ∨
  (r = v ∧ ∀ m ≤ path.length, t.value blank (path.take m) = none)

theorem IsLongest.cons {d : Dir} {p : Ptr} {a v r : α} {t u : Linked α} {path : List Dir}
    (h : IsLongest blank t path (if a = blank then v else a) r) :
    IsLongest blank (branch d p a t u) (d :: path) v r := by
  have hcons : ∀ m, (branch d p a t u).value blank ((d :: path).take (m + 1)) = t.value blank (path.take m) := by
    intro m
    rw [List.take_succ_cons, value_branch_cons, if_pos rfl]
  rcases h with ⟨n, hn, hsome, hnone⟩ | ⟨rfl, hnone⟩
  · refine .inl ⟨n + 1, Nat.succ_le_succ hn, by rw [hcons, hsome], fun m hm hle => ?_⟩
    obtain ⟨m, rfl⟩ : ∃ k, m = k + 1 := ⟨m - 1, by omega⟩
    rw [hcons]
    exact hnone m (by omega) (Nat.le_of_succ_le_succ hle)
  · have hafter : ∀ m, 0 < m → m ≤ (d :: path).length →
        (branch d p a t u).value blank ((d :: path).take m) = none := by
      intro m hm hle
      obtain ⟨m, rfl⟩ : ∃ k, m = k + 1 := ⟨m - 1, by omega⟩
      rw [hcons]
      exact hnone m (Nat.le_of_succ_le_succ hle)
    by_cases ha : a = blank
    · refine .inr ⟨by rw [if_pos ha], fun m hle => ?_⟩
      cases m with
      | zero => simp [ha]
      | succ m => exact hafter (m + 1) (Nat.succ_pos m) hle
    · exact .inl ⟨0, Nat.zero_le _, by simp [ha], hafter⟩

theorem longest_spec (blank : α) (t : Linked α) (path : List Dir) (v : α) :
    IsLongest blank t path v (t.longest blank path v) := by
  induction t generalizing path v with
  | nil =>
      refine .inr ⟨?_, fun m _ => value_nil _⟩
      cases path <;> rfl
  | node p a l r ihl ihr =>
      cases path with
      | nil =>
          by_cases ha : a = blank
          · exact .inr ⟨by simp [longest, ha], fun m _ => by simp [value, ha]⟩
          · refine .inl ⟨0, Nat.le_refl 0, by simp [value, longest, ha], fun m hm hle => ?_⟩
            exact absurd hm (Nat.not_lt.mpr hle)
      | cons d path =>
          cases d with
          | left => exact IsLongest.cons (ihl path (if a = blank then v else a))
          | right => exact IsLongest.cons (ihr path (if a = blank then v else a))

end Linked

-- The path that leads to a hole.
def path : List (Frame α) → List Dir
  | [] => []
  | f :: fs => path fs ++ [f.dir]

@[simp] theorem path_nil : path ([] : List (Frame α)) = [] := rfl

@[simp] theorem path_cons (f : Frame α) (fs : List (Frame α)) : path (f :: fs) = path fs ++ [f.dir] := rfl

@[simp] theorem path_length (fs : List (Frame α)) : (path fs).length = fs.length := by
  induction fs with
  | nil => rfl
  | cons f fs ih => simp [ih]

section

variable [DecidableEq α] {blank : α}

theorem value_plug_path (fs : List (Frame α)) (t : Linked α) (q : List Dir) :
    (plug fs t).value blank (path fs ++ q) = t.value blank q := by
  induction fs generalizing t q with
  | nil => rfl
  | cons f fs ih =>
      rw [plug_cons, path_cons, List.append_assoc, ih]
      simp [value_branch_cons]

-- A change below a hole shows only below the path to it.
theorem value_plug_ne (fs : List (Frame α)) (t t' : Linked α) (rest : List Dir)
    (h : ∀ q, q ≠ rest → t.value blank q = t'.value blank q) (q : List Dir) (hq : q ≠ path fs ++ rest) :
    (plug fs t).value blank q = (plug fs t').value blank q := by
  induction fs generalizing t t' rest with
  | nil => exact h q hq
  | cons f fs ih =>
      refine ih _ _ (f.dir :: rest) (fun e he => ?_) (by simpa using hq)
      rw [Frame.fill, Frame.fill]
      cases e with
      | nil => simp
      | cons d e =>
          rw [value_branch_cons, value_branch_cons]
          by_cases hd : d = f.dir
          · rw [if_pos hd, if_pos hd, h e fun heq => he (by rw [hd, heq])]
          · rw [if_neg hd, if_neg hd]

theorem value_plug_congr (fs : List (Frame α)) (t t' : Linked α)
    (h : ∀ q, t.value blank q = t'.value blank q) (q : List Dir) :
    (plug fs t).value blank q = (plug fs t').value blank q := by
  induction fs generalizing t t' with
  | nil => exact h q
  | cons f fs ih =>
      refine ih _ _ fun e => ?_
      rw [Frame.fill, Frame.fill]
      cases e with
      | nil => simp
      | cons d e => simp [value_branch_cons, h]

-- What a value written below a hole does to the values.
theorem value_plug_update (fs : List (Frame α)) (t t' : Linked α) (rest : List Dir)
    (h : ∀ q, q ≠ rest → t.value blank q = t'.value blank q) (q : List Dir) :
    (plug fs t').value blank q =
      if q = path fs ++ rest then t'.value blank rest else (plug fs t).value blank q := by
  by_cases hq : q = path fs ++ rest
  · rw [if_pos hq, hq, value_plug_path]
  · rw [if_neg hq, value_plug_ne fs t t' rest h q hq]

end

theorem depth_le_plug (fs : List (Frame α)) (t : Linked α) : fs.length + t.depth ≤ (plug fs t).depth := by
  induction fs generalizing t with
  | nil => simp
  | cons f fs ih =>
      have h := ih (branch f.dir f.ptr f.label t f.sib)
      rw [Linked.depth_branch] at h
      rw [plug_cons, List.length_cons]
      omega

theorem depth_plug_le (fs : List (Frame α)) (t t' : Linked α) :
    (plug fs t').depth ≤ max (plug fs t).depth (fs.length + t'.depth) := by
  induction fs generalizing t t' with
  | nil => exact Nat.le_trans (by simp) (Nat.le_max_right _ _)
  | cons f fs ih =>
      have h := ih (branch f.dir f.ptr f.label t f.sib) (branch f.dir f.ptr f.label t' f.sib)
      have hlow := depth_le_plug fs (branch f.dir f.ptr f.label t f.sib)
      rw [Linked.depth_branch] at h hlow
      rw [plug_cons, plug_cons, List.length_cons]
      omega

end LinkedTree
