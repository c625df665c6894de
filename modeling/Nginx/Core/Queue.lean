import Mathlib

-- A queue is the list of its elements from the head to the last one.
namespace Nginx.Queue

variable {α : Type}

-- The loop of ngx_queue_middle; middle and next stand for the queue from these elements on.
def middleLoop : List α → List α → List α
  | middle, _ :: _ :: z :: w :: next => middleLoop middle.tail (z :: w :: next)
  | middle, _ => middle.tail

-- ngx_queue_middle: the queue from the middle element on
def middle : List α → List α
  | [] => []
  | [q] => [q]
  | queue => middleLoop queue queue

-- The scan of ngx_queue_sort for the place of q; prev is what stands before q, the nearest element first.
def insertBack (cmp : α → α → Int) (q : α) : List α → List α
  | [] => [q]
  | prev :: before => if cmp prev q ≤ 0 then q :: prev :: before else prev :: insertBack cmp q before

-- ngx_queue_sort, the stable insertion sort
def sort (cmp : α → α → Int) (queue : List α) : List α :=
  (queue.foldl (fun sorted q => insertBack cmp q sorted) []).reverse

theorem middleLoop_eq (middle next : List α) (h : 2 ≤ next.length) :
    middleLoop middle next = middle.drop (next.length / 2) := by
  fun_induction middleLoop middle next with
  | case1 middle x y z w next ih =>
      have hhalf : (x :: y :: z :: w :: next).length / 2 = (z :: w :: next).length / 2 + 1 := by
        simp only [List.length_cons]
        omega
      rw [ih (by simp), hhalf, List.drop_tail]
  | case2 next middle hnext =>
      have hshort : next.length < 4 := by
        match next, hnext with
        | [], _ => simp
        | [_], _ => simp
        | [_, _], _ => simp
        | [_, _, _], _ => simp
        | x :: y :: z :: w :: next, hnext => exact absurd rfl (hnext x y z w next)
      have hhalf : next.length / 2 = 1 := by omega
      rw [hhalf, List.drop_one]

-- The middle element is the first one of the second half.
theorem middle_eq (queue : List α) : middle queue = queue.drop (queue.length / 2) := by
  match queue with
  | [] => simp [middle]
  | [_] => simp [middle]
  | x :: y :: queue => exact middleLoop_eq (x :: y :: queue) (x :: y :: queue) (by simp)

theorem insertBack_perm (cmp : α → α → Int) (q : α) (before : List α) :
    (insertBack cmp q before).Perm (q :: before) := by
  induction before with
  | nil => exact List.Perm.refl _
  | cons prev before ih =>
      rw [insertBack]
      split
      · exact List.Perm.refl _
      · exact (ih.cons prev).trans (List.Perm.swap q prev before)

theorem sort_perm (cmp : α → α → Int) (queue : List α) : (sort cmp queue).Perm queue := by
  have hfold : ∀ sorted : List α,
      (queue.foldl (fun sorted q => insertBack cmp q sorted) sorted).Perm (queue ++ sorted) := by
    induction queue with
    | nil => exact fun sorted => List.Perm.refl _
    | cons q queue ih =>
        intro sorted
        have hrest := ih (insertBack cmp q sorted)
        have hins := (insertBack_perm cmp q sorted).append_left queue
        exact (hrest.trans hins).trans List.perm_middle
  have hall := hfold []
  rw [List.append_nil] at hall
  exact (List.reverse_perm _).trans hall

theorem insertBack_map {β : Type} (f : β → α) (cmp : α → α → Int) (q : β) (before : List β) :
    insertBack cmp (f q) (before.map f) = (insertBack (fun a b => cmp (f a) (f b)) q before).map f := by
  induction before with
  | nil => rfl
  | cons prev before ih =>
      rw [List.map_cons, insertBack, insertBack]
      split
      · rfl
      · rw [List.map_cons, ih]

theorem sort_map {β : Type} (f : β → α) (cmp : α → α → Int) (queue : List β) :
    sort cmp (queue.map f) = (sort (fun a b => cmp (f a) (f b)) queue).map f := by
  have hfold : ∀ sorted : List β,
      (queue.map f).foldl (fun sorted q => insertBack cmp q sorted) (sorted.map f) =
        (queue.foldl (fun sorted q => insertBack (fun a b => cmp (f a) (f b)) q sorted) sorted).map f := by
    induction queue with
    | nil => exact fun sorted => rfl
    | cons q queue ih =>
        intro sorted
        rw [List.map_cons, List.foldl_cons, List.foldl_cons, insertBack_map, ih]
  have hall := hfold []
  rw [List.map_nil] at hall
  rw [sort, sort, hall, List.map_reverse]

section

variable {cmp : α → α → Int} {p : α → Prop}

theorem insertBack_pairwise (htotal : ∀ a b, p a → p b → cmp a b ≤ 0 ∨ cmp b a ≤ 0)
    (htrans : ∀ a b c, p a → p b → p c → cmp a b ≤ 0 → cmp b c ≤ 0 → cmp a c ≤ 0) (q : α) (before : List α)
    (hq : p q) (hbefore : ∀ a ∈ before, p a) (hsorted : before.Pairwise fun a b => cmp b a ≤ 0) :
    (insertBack cmp q before).Pairwise fun a b => cmp b a ≤ 0 := by
  induction before with
  | nil => exact List.pairwise_singleton _ q
  | cons prev before ih =>
      obtain ⟨hprev, hrest⟩ := List.pairwise_cons.mp hsorted
      have hp : p prev := hbefore prev List.mem_cons_self
      have hps : ∀ a ∈ before, p a := fun a ha => hbefore a (List.mem_cons_of_mem _ ha)
      rw [insertBack]
      split
      · rename_i hle
        refine List.pairwise_cons.mpr ⟨?_, hsorted⟩
        intro a ha
        rcases List.mem_cons.mp ha with rfl | ha
        · exact hle
        · exact htrans a prev q (hps a ha) hp hq (hprev a ha) hle
      · rename_i hgt
        refine List.pairwise_cons.mpr ⟨?_, ih hps hrest⟩
        intro a ha
        rcases List.mem_cons.mp ((insertBack_perm cmp q before).mem_iff.mp ha) with rfl | ha
        · exact (htotal prev a hp hq).resolve_left hgt
        · exact hprev a ha

-- The elements need to be comparable only among themselves.
theorem sort_pairwise (htotal : ∀ a b, p a → p b → cmp a b ≤ 0 ∨ cmp b a ≤ 0)
    (htrans : ∀ a b c, p a → p b → p c → cmp a b ≤ 0 → cmp b c ≤ 0 → cmp a c ≤ 0) (queue : List α)
    (hqueue : ∀ a ∈ queue, p a) : (sort cmp queue).Pairwise fun a b => cmp a b ≤ 0 := by
  have hfold : ∀ sorted : List α, (∀ a ∈ sorted, p a) → (sorted.Pairwise fun a b => cmp b a ≤ 0) →
      (queue.foldl (fun sorted q => insertBack cmp q sorted) sorted).Pairwise fun a b => cmp b a ≤ 0 := by
    induction queue with
    | nil => exact fun sorted _ hsorted => hsorted
    | cons q queue ih =>
        intro sorted hp hsorted
        have hq : p q := hqueue q List.mem_cons_self
        apply ih (fun a ha => hqueue a (List.mem_cons_of_mem _ ha))
        · intro a ha
          rcases List.mem_cons.mp ((insertBack_perm cmp q sorted).mem_iff.mp ha) with rfl | ha
          · exact hq
          · exact hp a ha
        · exact insertBack_pairwise htotal htrans q sorted hq hp hsorted
  have hall := hfold [] (by simp) List.Pairwise.nil
  rw [sort, List.pairwise_reverse]
  exact hall

end

-- Where the scan stops
theorem insertBack_split (cmp : α → α → Int) (q : α) (before : List α) :
    ∃ front back, before = front ++ back ∧ insertBack cmp q before = front ++ q :: back ∧
      ∀ x ∈ front, ¬cmp x q ≤ 0 := by
  induction before with
  | nil => exact ⟨[], [], rfl, rfl, fun x hx => absurd hx List.not_mem_nil⟩
  | cons prev before ih =>
      by_cases hle : cmp prev q ≤ 0
      · exact ⟨[], prev :: before, rfl, by rw [insertBack, if_pos hle]; rfl, fun x hx => absurd hx List.not_mem_nil⟩
      · obtain ⟨front, back, hsplit, hinsert, hfront⟩ := ih
        refine ⟨prev :: front, back, congrArg (prev :: ·) hsplit, ?_, ?_⟩
        · rw [insertBack, if_neg hle, hinsert]
          rfl
        · exact List.forall_mem_cons.mpr ⟨hle, hfront⟩

theorem pair_sublist_append {a b : α} {l m : List α} :
    [a, b].Sublist (l ++ m) ↔ [a, b].Sublist l ∨ (a ∈ l ∧ b ∈ m) ∨ [a, b].Sublist m := by
  constructor
  · intro h
    obtain ⟨front, back, hsplit, hfront, hback⟩ := List.sublist_append_iff.mp h
    match front, back, hsplit with
    | [], _, rfl => exact Or.inr (Or.inr hback)
    | [_], [_], rfl => exact Or.inr (Or.inl ⟨List.singleton_sublist.mp hfront, List.singleton_sublist.mp hback⟩)
    | [_, _], [], rfl => exact Or.inl hfront
  · rintro (h | ⟨ha, hb⟩ | h)
    · exact h.trans (List.sublist_append_left l m)
    · exact (List.singleton_sublist.mpr ha).append (List.singleton_sublist.mpr hb)
    · exact h.trans (List.sublist_append_right l m)

-- Only elements that are greater are passed.
theorem insertBack_stable {cmp : α → α → Int} {a b : α} (hle : cmp a b ≤ 0) (q : α) (before rest : List α)
    (h : [a, b].Sublist (before.reverse ++ q :: rest)) : [a, b].Sublist ((insertBack cmp q before).reverse ++ rest) := by
  obtain ⟨front, back, rfl, hinsert, hfront⟩ := insertBack_split cmp q before
  have hpass : ¬(a ∈ front.reverse ∧ b = q) := by
    rintro ⟨ha, rfl⟩
    exact hfront a (List.mem_reverse.mp ha) hle
  have hsingle : ¬[a, b].Sublist [q] := fun hpair => by simpa using hpair.length_le
  have hlist : (back.reverse ++ front.reverse) ++ q :: rest = back.reverse ++ (front.reverse ++ ([q] ++ rest)) := by simp
  have hnew : (front ++ q :: back).reverse ++ rest = back.reverse ++ ([q] ++ (front.reverse ++ rest)) := by simp
  rw [List.reverse_append, hlist] at h
  rw [hinsert, hnew]
  simp only [pair_sublist_append, List.mem_append, List.mem_singleton] at h ⊢
  grind

theorem sort_stable {cmp : α → α → Int} {a b : α} (hle : cmp a b ≤ 0) (queue : List α)
    (h : [a, b].Sublist queue) : [a, b].Sublist (sort cmp queue) := by
  have hfold : ∀ sorted : List α, [a, b].Sublist (sorted.reverse ++ queue) →
      [a, b].Sublist (queue.foldl (fun sorted q => insertBack cmp q sorted) sorted).reverse := by
    clear h
    induction queue with
    | nil =>
        intro sorted h
        rwa [List.append_nil] at h
    | cons q queue ih => exact fun sorted h => ih _ (insertBack_stable hle q sorted queue h)
  exact hfold [] h

end Nginx.Queue
