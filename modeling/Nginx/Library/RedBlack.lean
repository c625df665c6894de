import Nginx.Library.LinkedTree

-- Linked trees whose labels are colors: true is red.
namespace LinkedTree

open Linked

namespace Linked

def red : Linked Bool → Bool
  | nil => false
  | node _ c _ _ => c

@[simp] theorem red_nil : (nil : Linked Bool).red = false := rfl

@[simp] theorem red_branch (d : Dir) (p : Ptr) (c : Bool) (t u : Linked Bool) :
    (branch d p c t u).red = c := by cases d <;> rfl

def NoRedRed : Linked Bool → Prop
  | nil => True
  | node _ c l r => (c = true → l.red = false ∧ r.red = false) ∧ l.NoRedRed ∧ r.NoRedRed

@[simp] theorem noRedRed_nil : NoRedRed nil := trivial

@[simp] theorem noRedRed_branch (d : Dir) (p : Ptr) (c : Bool) (t u : Linked Bool) :
    NoRedRed (branch d p c t u) ↔
      (c = true → t.red = false ∧ u.red = false) ∧ t.NoRedRed ∧ u.NoRedRed := by
  cases d
  · rfl
  · simp only [branch, NoRedRed]
    tauto

-- The number of black nodes on every path to the empty tree.
def weight (c : Bool) : Nat := if c then 0 else 1

@[simp] theorem weight_true : weight true = 0 := rfl

@[simp] theorem weight_false : weight false = 1 := rfl

def Height : Linked Bool → Nat → Prop
  | nil, n => n = 0
  | node _ c l r, n => ∃ m, n = m + weight c ∧ l.Height m ∧ r.Height m

@[simp] theorem height_nil (n : Nat) : Height nil n ↔ n = 0 := Iff.rfl

theorem height_branch (d : Dir) (p : Ptr) (c : Bool) (t u : Linked Bool) (n : Nat) :
    Height (branch d p c t u) n ↔ ∃ m, n = m + weight c ∧ t.Height m ∧ u.Height m := by
  cases d
  · rfl
  · simp only [branch, Height]
    tauto

@[simp] theorem height_branch_red (d : Dir) (p : Ptr) (t u : Linked Bool) (n : Nat) :
    Height (branch d p true t u) n ↔ t.Height n ∧ u.Height n := by
  simp [height_branch]

@[simp] theorem height_branch_black (d : Dir) (p : Ptr) (t u : Linked Bool) (n : Nat) :
    Height (branch d p false t u) (n + 1) ↔ t.Height n ∧ u.Height n := by
  simp [height_branch]

theorem height_branch_add (d : Dir) (p : Ptr) (c : Bool) (t u : Linked Bool) (n : Nat) :
    Height (branch d p c t u) (n + weight c) ↔ t.Height n ∧ u.Height n := by
  cases c <;> simp

theorem Height.ne_nil {t : Linked Bool} {n : Nat} (h : t.Height (n + 1)) : t ≠ nil := by
  rintro rfl
  cases h

theorem Height.unique {t : Linked Bool} {m n : Nat} (hm : t.Height m) (hn : t.Height n) : m = n := by
  induction t generalizing m n with
  | nil => exact hm.trans hn.symm
  | node p c l r ihl _ =>
      obtain ⟨i, rfl, hi, -⟩ := hm
      obtain ⟨j, rfl, hj, -⟩ := hn
      rw [ihl hi hj]

-- A red-black tree.
structure RedBlack (t : Linked Bool) : Prop where
  root : t.red = false
  noRedRed : t.NoRedRed
  height : ∃ n, t.Height n

end Linked

-- The same conditions around a subtree. The place above the root counts as red.
def outerRed : List (Frame Bool) → Bool
  | [] => true
  | f :: _ => f.label

def OuterNoRedRed : List (Frame Bool) → Prop
  | [] => True
  | f :: fs => (f.label = true → f.sib.red = false ∧ outerRed fs = false) ∧ f.sib.NoRedRed ∧
      OuterNoRedRed fs

def OuterHeight : List (Frame Bool) → Nat → Prop
  | [], _ => True
  | f :: fs, n => f.sib.Height n ∧ OuterHeight fs (n + weight f.label)

theorem noRedRed_plug (fs : List (Frame Bool)) (t : Linked Bool) :
    (plug fs t).NoRedRed ∧ (plug fs t).red = false ↔
      t.NoRedRed ∧ OuterNoRedRed fs ∧ (outerRed fs = true → t.red = false) := by
  induction fs generalizing t with
  | nil => simp [OuterNoRedRed, outerRed]
  | cons f fs ih =>
      rw [plug_cons, ih, noRedRed_branch, red_branch]
      simp only [OuterNoRedRed, outerRed]
      cases outerRed fs <;> cases f.label <;> simp <;> tauto

theorem height_plug (fs : List (Frame Bool)) (t : Linked Bool) :
    (∃ n, (plug fs t).Height n) ↔ ∃ n, t.Height n ∧ OuterHeight fs n := by
  induction fs generalizing t with
  | nil => simp [OuterHeight]
  | cons f fs ih =>
      rw [plug_cons, ih]
      constructor
      · rintro ⟨n, hn, hfs⟩
        obtain ⟨m, rfl, ht, hu⟩ := (height_branch _ _ _ _ _ _).mp hn
        exact ⟨m, ht, hu, hfs⟩
      · rintro ⟨n, ht, hu, hfs⟩
        exact ⟨n + weight f.label, (height_branch_add _ _ _ _ _ _).mpr ⟨ht, hu⟩, hfs⟩

theorem redBlack_plug (fs : List (Frame Bool)) (t : Linked Bool) :
    (plug fs t).RedBlack ↔ ∃ n, t.Height n ∧ OuterHeight fs n ∧ t.NoRedRed ∧ OuterNoRedRed fs ∧
      (outerRed fs = true → t.red = false) := by
  have hcolors := noRedRed_plug fs t
  have hheight := height_plug fs t
  constructor
  · rintro ⟨hroot, hno, hn⟩
    obtain ⟨n, ht, hfs⟩ := hheight.mp hn
    obtain ⟨h1, h2, h3⟩ := hcolors.mp ⟨hno, hroot⟩
    exact ⟨n, ht, hfs, h1, h2, h3⟩
  · rintro ⟨n, ht, hfs, h1, h2, h3⟩
    obtain ⟨hno, hroot⟩ := hcolors.mpr ⟨h1, h2, h3⟩
    exact ⟨hroot, hno, hheight.mpr ⟨n, ht, hfs⟩⟩

-- The address of a frame does not matter for its colors.
def Frame.colors (f : Frame Bool) : Bool × Linked Bool := (f.label, f.sib)

theorem outer_congr (fs gs : List (Frame Bool)) (h : fs.map Frame.colors = gs.map Frame.colors) :
    outerRed fs = outerRed gs ∧ (OuterNoRedRed fs ↔ OuterNoRedRed gs) ∧
      ∀ n, OuterHeight fs n ↔ OuterHeight gs n := by
  induction fs generalizing gs with
  | nil =>
      obtain rfl : gs = [] := by simpa using h.symm
      exact ⟨rfl, Iff.rfl, fun _ => Iff.rfl⟩
  | cons f fs ih =>
      cases gs with
      | nil => cases h
      | cons g gs =>
          simp only [List.map_cons, List.cons.injEq, Frame.colors, Prod.mk.injEq] at h
          obtain ⟨⟨hlabel, hsib⟩, hrest⟩ := h
          obtain ⟨h1, h2, h3⟩ := ih gs hrest
          refine ⟨hlabel, ?_, fun n => ?_⟩
          · rw [OuterNoRedRed, OuterNoRedRed, hlabel, hsib, h1, h2]
          · rw [OuterHeight, OuterHeight, hlabel, hsib, h3]

end LinkedTree
