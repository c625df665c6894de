import Nginx.Core.Queue
import Nginx.Library.LinkedRing

-- The queue as it stands in the links of its nodes. The sentinel is s; cmp reads what is around the nodes.
namespace Nginx.Queue

open LinkedRing

variable {ι : Type}

-- The node before x
theorem prev_cons {H : Links ι} {s x y : ι} {before rest : List ι} (h : Ring H s ((x :: y :: before).reverse ++ rest)) :
    H.prev x = y ∧ y ≠ s := by
  have hsplit : (x :: y :: before).reverse ++ rest = (y :: before).reverse ++ x :: rest := by simp
  rw [hsplit] at h
  obtain ⟨n, B, hn⟩ := first_behind s rest
  obtain ⟨⟨-, hprev⟩, -⟩ := h.neighbours (A := s :: before.reverse) (p := y) (by simp) hn
  refine ⟨hprev, ?_⟩
  rintro rfl
  exact (List.nodup_cons.mp h.nodup).1 (by simp)

theorem prev_first {H : Links ι} {s x : ι} {rest : List ι} (h : Ring H s (x :: rest)) : H.prev x = s := by
  obtain ⟨n, B, hn⟩ := first_behind s rest
  exact (h.neighbours (a := []) (A := []) rfl hn).1.2

theorem prev_last {H : Links ι} {s z : ι} {queue : List ι} (h : Ring H s (queue ++ [z])) : H.prev s = z := by
  rw [← List.append_nil (queue ++ [z])] at h
  exact (h.split (A := s :: queue) (b := []) rfl rfl).2.1.2

theorem next_cons {H : Links ι} {s x y : ι} {before rest : List ι} (h : Ring H s (before ++ x :: y :: rest)) :
    H.next x = y := by
  obtain ⟨A, p, hp⟩ := last_before s before
  exact (h.neighbours (n := y) hp rfl).2.1

theorem next_first {H : Links ι} {s x : ι} {rest : List ι} (h : Ring H s (x :: rest)) : H.next s = x :=
  (h.neighbours (a := []) (A := []) rfl (first_behind s rest).choose_spec.choose_spec).1.1

variable [DecidableEq ι]

def setNext (H : Links ι) (p x : ι) : Links ι := { H with next := Function.update H.next p x }

def setPrev (H : Links ι) (p x : ι) : Links ι := { H with prev := Function.update H.prev p x }

-- ngx_queue_remove
def remove (H : Links ι) (x : ι) : Links ι :=
  let H := setPrev H (H.next x) (H.prev x)
  setNext H (H.prev x) (H.next x)

-- ngx_queue_insert_after
def insertAfter (H : Links ι) (h x : ι) : Links ι :=
  let H := setNext H x (H.next h)
  let H := setPrev H (H.next x) x
  let H := setPrev H x h
  setNext H h x

-- ngx_queue_middle
def middleFrom (H : Links ι) (s : ι) : Nat → ι → ι → Option ι
  | 0, _, _ => none
  | fuel + 1, middle, next =>
    let middle := H.next middle
    let next := H.next next
    if next = H.prev s then some middle
    else
      let next := H.next next
      if next = H.prev s then some middle else middleFrom H s fuel middle next

def middleNode (fuel : Nat) (H : Links ι) (s : ι) : Option ι :=
  let middle := H.next s
  if middle = H.prev s then some middle else middleFrom H s fuel middle (H.next s)

-- The do loop of ngx_queue_sort, from prev back to the sentinel
def scanBack (cmp : ι → ι → Int) (H : Links ι) (s q : ι) : Nat → ι → Option ι
  | 0, _ => none
  | fuel + 1, prev =>
    if cmp prev q ≤ 0 then some prev
    else
      let prev := H.prev prev
      if prev = s then some prev else scanBack cmp H s q fuel prev

def sortFrom (cmp : ι → ι → Int) (s : ι) (scan : Nat) : Nat → Links ι → ι → Option (Links ι)
  | 0, _, _ => none
  | fuel + 1, H, q =>
    if q = s then some H
    else do
      let prev := H.prev q
      let next := H.next q
      let H := remove H q
      let prev ← scanBack cmp H s q scan prev
      sortFrom cmp s scan fuel (insertAfter H prev q) next

-- ngx_queue_sort
def sortNodes (cmp : ι → ι → Int) (fuel : Nat) (H : Links ι) (s : ι) : Option (Links ι) :=
  let q := H.next s
  if q = H.prev s then some H else sortFrom cmp s fuel fuel H (H.next q)

section Ring

variable {H : Links ι} {s q p : ι} {a b A : List ι}

theorem remove_ring (h : Ring H s (a ++ q :: b)) : Ring (remove H q) s (a ++ b) := by
  obtain ⟨A, p, hp⟩ := last_before s a
  obtain ⟨n, B, hn⟩ := first_behind s b
  obtain ⟨⟨-, hprev⟩, hnext, -⟩ := h.neighbours hp hn
  have hqn : q ≠ n := by
    have hmem : n ∈ b ++ [s] := by rw [hn]; exact List.mem_cons_self
    have hnodup : (q :: s :: (a ++ b)).Nodup :=
      ((List.perm_middle.cons s).trans (List.Perm.swap q s (a ++ b))).nodup_iff.mp h.nodup
    rintro rfl
    apply (List.nodup_cons.mp hnodup).1
    simp only [List.mem_append, List.mem_cons, List.not_mem_nil, or_false] at hmem ⊢
    tauto
  apply h.unlink hp hn
  · simp only [remove, setNext, setPrev, hnext, hprev, Function.update_of_ne hqn]
  · simp only [remove, setNext, setPrev, hnext, hprev]

theorem insertAfter_ring (h : Ring H s (a ++ b)) (hq : q ∉ s :: (a ++ b)) (hp : s :: a = A ++ [p]) :
    Ring (insertAfter H p q) s (a ++ q :: b) := by
  obtain ⟨n, B, hn⟩ := first_behind s b
  obtain ⟨-, ⟨hnext, -⟩, -⟩ := h.split hp hn
  apply h.link hq hp hn
  · simp only [insertAfter, setNext, setPrev, hnext]
  · simp only [insertAfter, setNext, setPrev, hnext, Function.update_self]

end Ring

section Sorting

variable {H : Links ι} {s q : ι}

-- The scan finds the place that the insertion into the list has.
theorem scanBack_ring (cmp : ι → ι → Int) (q : ι) {x : ι} {before rest : List ι} (h : Ring H s ((x :: before).reverse ++ rest)) {fuel : Nat}
    (hfuel : before.length < fuel) : ∃ front back p A, scanBack cmp H s q fuel x = some p ∧
      x :: before = front ++ back ∧ insertBack cmp q (x :: before) = front ++ q :: back ∧
      s :: back.reverse = A ++ [p] := by
  induction before generalizing x rest fuel with
  | nil =>
      obtain ⟨fuel, rfl⟩ : ∃ n, fuel = n + 1 := ⟨fuel - 1, by omega⟩
      by_cases hle : cmp x q ≤ 0
      · exact ⟨[], [x], x, [s], by rw [scanBack, if_pos hle], rfl, by rw [insertBack, if_pos hle]; rfl, rfl⟩
      · refine ⟨[x], [], s, [], ?_, rfl, by rw [insertBack, if_neg hle]; rfl, rfl⟩
        have hprev : H.prev x = s := prev_first h
        rw [scanBack, if_neg hle, hprev, if_pos rfl]
  | cons y before ih =>
      obtain ⟨fuel, rfl⟩ : ∃ n, fuel = n + 1 := ⟨fuel - 1, by omega⟩
      by_cases hle : cmp x q ≤ 0
      · refine ⟨[], x :: y :: before, x, s :: (y :: before).reverse, by rw [scanBack, if_pos hle], rfl, ?_, ?_⟩
        · rw [insertBack, if_pos hle]
          rfl
        · rw [List.reverse_cons, List.cons_append]
      · obtain ⟨hprev, hys⟩ := prev_cons h
        have hnext : Ring H s ((y :: before).reverse ++ x :: rest) := by
          rwa [List.reverse_cons, List.append_assoc] at h
        obtain ⟨front, back, p, A, hscan, hsplit, hinsert, hp⟩ := ih hnext (Nat.lt_of_succ_lt_succ hfuel)
        refine ⟨x :: front, back, p, A, ?_, congrArg (x :: ·) hsplit, ?_, hp⟩
        · rw [scanBack, if_neg hle, hprev, if_neg hys, hscan]
        · rw [insertBack, if_neg hle, hinsert]
          rfl

-- One element goes to its place; the queue from the next one on is as it was.
theorem sortStep_ring (cmp : ι → ι → Int) {x : ι} {before rest : List ι} (h : Ring H s ((x :: before).reverse ++ q :: rest)) {scan : Nat}
    (hscan : before.length < scan) : ∃ p, scanBack cmp (remove H q) s q scan (H.prev q) = some p ∧
      Ring (insertAfter (remove H q) p q) s ((insertBack cmp q (x :: before)).reverse ++ rest) := by
  obtain ⟨n, B, hn⟩ := first_behind s rest
  obtain ⟨⟨-, hprev⟩, -⟩ := h.neighbours (A := s :: before.reverse) (p := x) (by simp) hn
  have hremoved := remove_ring h
  obtain ⟨front, back, p, A, hp, hsplit, hinsert, hlast⟩ := scanBack_ring cmp q hremoved hscan
  refine ⟨p, by rw [hprev, hp], ?_⟩
  rw [hsplit, List.reverse_append, List.append_assoc] at hremoved
  have hq : q ∉ s :: (back.reverse ++ (front.reverse ++ rest)) := by
    have hperm : (s :: ((x :: before).reverse ++ q :: rest)).Perm (q :: s :: ((x :: before).reverse ++ rest)) :=
      (List.perm_middle.cons s).trans (List.Perm.swap q s _)
    have hnodup := (List.nodup_cons.mp (hperm.nodup_iff.mp h.nodup)).1
    rwa [hsplit, List.reverse_append, List.append_assoc] at hnodup
  have hinserted := insertAfter_ring hremoved hq hlast
  rw [hinsert, List.reverse_append, List.reverse_cons, List.append_assoc, List.append_assoc]
  exact hinserted

theorem sortFrom_ring (cmp : ι → ι → Int) {before rest : List ι} (hbefore : before ≠ []) (h : Ring H s (before.reverse ++ rest))
    {scan fuel : Nat} (hscan : before.length + rest.length ≤ scan) (hfuel : rest.length < fuel) {q : ι} {B : List ι}
    (hq : rest ++ [s] = q :: B) : ∃ H', sortFrom cmp s scan fuel H q = some H' ∧
      Ring H' s (rest.foldl (fun sorted q => insertBack cmp q sorted) before).reverse := by
  induction rest generalizing before H fuel q B with
  | nil =>
      obtain ⟨fuel, rfl⟩ : ∃ n, fuel = n + 1 := ⟨fuel - 1, by omega⟩
      obtain ⟨rfl, -⟩ := List.cons_eq_cons.mp hq
      rw [List.append_nil] at h
      exact ⟨H, by rw [sortFrom, if_pos rfl], h⟩
  | cons y rest ih =>
      obtain ⟨fuel, rfl⟩ : ∃ n, fuel = n + 1 := ⟨fuel - 1, by omega⟩
      obtain ⟨rfl, -⟩ := List.cons_eq_cons.mp hq
      obtain ⟨x, before, rfl⟩ := List.exists_cons_of_ne_nil hbefore
      obtain ⟨n, B, hn⟩ := first_behind s rest
      obtain ⟨-, hnext, -⟩ := h.neighbours (A := s :: before.reverse) (p := x) (by simp) hn
      have hys : y ≠ s := by
        rintro rfl
        exact (List.nodup_cons.mp h.nodup).1 (by simp)
      simp only [List.length_cons] at hscan hfuel
      have hroom : before.length < scan := by omega
      obtain ⟨p, hp, hring⟩ := sortStep_ring cmp h hroom
      have hlength := (insertBack_perm cmp y (x :: before)).length_eq
      simp only [List.length_cons] at hlength
      have hne : insertBack cmp y (x :: before) ≠ [] := by
        rw [← List.length_pos_iff]
        omega
      have hleft : rest.length < fuel := by omega
      obtain ⟨H', hsort, hresult⟩ := ih hne hring (by omega) hleft hn
      refine ⟨H', ?_, hresult⟩
      rw [sortFrom, if_neg hys]
      simp only [hnext, hp, Option.bind_eq_bind, Option.bind_some, hsort]

theorem sortNodes_ring (cmp : ι → ι → Int) {queue : List ι} (h : Ring H s queue) {fuel : Nat} (hfuel : queue.length < fuel) :
    ∃ H', sortNodes cmp fuel H s = some H' ∧ Ring H' s (sort cmp queue) := by
  match queue, h, hfuel with
  | [], h, _ =>
      have hempty : Linked H s s := (List.isChain_cons_cons.mp h.chain).1
      exact ⟨H, by rw [sortNodes, hempty.1, hempty.2, if_pos rfl], h⟩
  | [x], h, _ =>
      have hlast : H.prev s = x := @prev_last _ _ _ _ [] h
      exact ⟨H, by rw [sortNodes, next_first h, hlast, if_pos rfl], h⟩
  | x :: y :: rest, h, hfuel =>
      have hnext : H.next x = y := @next_cons _ _ _ _ _ [] _ h
      have hlast : H.prev s ≠ x := by
        obtain ⟨front, z, hz⟩ := last_before y rest
        rw [hz, ← List.cons_append] at h
        rw [prev_last h]
        rintro rfl
        exact (List.nodup_cons.mp (List.nodup_cons.mp h.nodup).2).1 (by simp)
      simp only [List.length_cons] at hfuel
      have hleft : (y :: rest).length < fuel := by
        simp only [List.length_cons]
        omega
      have hscan : [x].length + (y :: rest).length ≤ fuel := by
        simp only [List.length_cons, List.length_nil]
        omega
      obtain ⟨H', hsort, hring⟩ := sortFrom_ring cmp (List.cons_ne_nil x []) h hscan hleft (B := rest ++ [s]) rfl
      refine ⟨H', ?_, hring⟩
      rw [sortNodes, next_first h, if_neg (Ne.symm hlast), hnext, hsort]

end Sorting

section Middle

variable {H : Links ι} {s : ι} {queue : List ι}

omit [DecidableEq ι] in
-- An element is the last one when nothing stands behind it.
theorem last_iff (h : Ring H s queue) {x : ι} {rest : List ι} (hsuffix : x :: rest <:+ queue) :
    x = H.prev s ↔ rest = [] := by
  obtain ⟨before, rfl⟩ := hsuffix
  constructor
  · intro hx
    rcases List.eq_nil_or_concat rest with rfl | ⟨front, z, rfl⟩
    · rfl
    · have hqueue : before ++ x :: (front ++ [z]) = before ++ x :: front ++ [z] := by simp
      rw [List.concat_eq_append, hqueue] at h
      rw [prev_last h] at hx
      subst hx
      have hnodup := (List.nodup_cons.mp h.nodup).2
      exact absurd rfl ((List.nodup_append.mp hnodup).2.2 x (by simp) x (List.mem_singleton_self x))
  · rintro rfl
    exact (prev_last h).symm

omit [DecidableEq ι] in
theorem next_suffix (h : Ring H s queue) {x y : ι} {rest : List ι} (hsuffix : x :: y :: rest <:+ queue) :
    H.next x = y := by
  obtain ⟨before, rfl⟩ := hsuffix
  exact next_cons h

-- The two pointers walk over what the lists have left.
theorem middleFrom_ring (h : Ring H s queue) {m n x y : ι} {middle next : List ι} (hmiddle : m :: n :: middle <:+ queue)
    (hnext : x :: y :: next <:+ queue) (hbehind : next.length ≤ middle.length) {fuel : Nat}
    (hfuel : next.length < fuel) :
    middleFrom H s fuel m x = (middleLoop (m :: n :: middle) (x :: y :: next)).head? := by
  induction fuel generalizing m n x y middle next with
  | zero => exact absurd hfuel (Nat.not_lt_zero _)
  | succ fuel ih =>
      have hy : y :: next <:+ queue := (List.suffix_cons x _).trans hnext
      rw [middleFrom, next_suffix h hmiddle, next_suffix h hnext]
      match next, hnext, hbehind, hfuel, hy with
      | [], _, _, _, hy =>
          rw [if_pos ((last_iff h hy).mpr rfl)]
          rfl
      | [z], _, _, _, hy =>
          have hz : [z] <:+ queue := (List.suffix_cons y _).trans hy
          have hlast : y ≠ H.prev s := fun hlast => List.cons_ne_nil z [] ((last_iff h hy).mp hlast)
          rw [if_neg hlast, next_suffix h hy, if_pos ((last_iff h hz).mpr rfl)]
          rfl
      | z :: w :: next, _, hbehind, hfuel, hy =>
          have hz : z :: w :: next <:+ queue := (List.suffix_cons y _).trans hy
          have hlast : y ≠ H.prev s := fun hlast => List.cons_ne_nil z _ ((last_iff h hy).mp hlast)
          have hlast' : z ≠ H.prev s := fun hlast => List.cons_ne_nil w _ ((last_iff h hz).mp hlast)
          simp only [List.length_cons] at hbehind hfuel
          obtain ⟨k, middle, rfl⟩ := List.exists_cons_of_length_pos (by omega : 0 < middle.length)
          have hm : n :: k :: middle <:+ queue := (List.suffix_cons m _).trans hmiddle
          simp only [List.length_cons] at hbehind
          simp only [if_neg hlast, next_suffix h hy, if_neg hlast']
          exact ih hm hz (by omega) (by omega)

theorem middleNode_ring (h : Ring H s queue) {fuel : Nat} (hfuel : queue.length < fuel) (hne : 0 < queue.length) :
    middleNode fuel H s = some queue[queue.length / 2] := by
  have hmiddle : (middle queue).head? = some queue[queue.length / 2] := by
    rw [middle_eq, List.head?_drop, List.getElem?_eq_getElem]
  rw [← hmiddle]
  match queue, h, hfuel, hne with
  | [], _, _, hne => exact absurd hne (Nat.lt_irrefl 0)
  | [x], h, _, _ =>
      have hlast : H.prev s = x := @prev_last _ _ _ _ [] h
      rw [middleNode, next_first h, hlast, if_pos rfl]
      rfl
  | x :: y :: rest, h, hfuel, _ =>
      have hlast : x ≠ H.prev s := fun hlast =>
        List.cons_ne_nil y rest ((last_iff h (List.suffix_refl _)).mp hlast)
      simp only [List.length_cons] at hfuel
      rw [middleNode, next_first h, if_neg hlast]
      exact middleFrom_ring h (List.suffix_refl _) (List.suffix_refl _) (Nat.le_refl _) (by omega)

end Middle

-- The queue after the sort, and its middle
theorem sort_middle (cmp : ι → ι → Int) (htotal : ∀ a b, cmp a b ≤ 0 ∨ cmp b a ≤ 0)
    (htrans : ∀ a b c, cmp a b ≤ 0 → cmp b c ≤ 0 → cmp a c ≤ 0) (H : Links ι) (s : ι) (queue : List ι)
    (h : Ring H s queue) (fuel : Nat) (hfuel : queue.length < fuel) :
    (∃ H' sorted, sortNodes cmp fuel H s = some H' ∧ Ring H' s sorted ∧ sorted.Perm queue ∧
      sorted.Pairwise (fun a b => cmp a b ≤ 0) ∧
      ∀ a b, cmp a b ≤ 0 → cmp b a ≤ 0 → [a, b].Sublist queue → [a, b].Sublist sorted) ∧
    ∀ hne : 0 < queue.length, middleNode fuel H s = some queue[queue.length / 2] := by
  obtain ⟨H', hsort, hring⟩ := sortNodes_ring cmp h hfuel
  have hsorted := sort_pairwise (p := fun _ => True) (fun a b _ _ => htotal a b)
    (fun a b c _ _ _ => htrans a b c) queue (fun _ _ => trivial)
  refine ⟨⟨H', sort cmp queue, hsort, hring, sort_perm cmp queue, hsorted, ?_⟩, middleNode_ring h hfuel⟩
  exact fun a b hle _ hpair => sort_stable hle queue hpair

-- Four nodes, of which two are equal and two others are
theorem sort_middle_parity : ∃ (cmp : Nat → Nat → Int) (H : Links Nat),
    (∀ a b, cmp a b ≤ 0 ∨ cmp b a ≤ 0) ∧ (∀ a b c, cmp a b ≤ 0 → cmp b c ≤ 0 → cmp a c ≤ 0) ∧
    Ring H 0 [1, 2, 3, 4] ∧
    (∃ H' sorted, sortNodes cmp 5 H 0 = some H' ∧ Ring H' 0 sorted ∧ sorted.Perm [1, 2, 3, 4] ∧
      sorted.Pairwise (fun a b => cmp a b ≤ 0) ∧
      ∀ a b, cmp a b ≤ 0 → cmp b a ≤ 0 → [a, b].Sublist [1, 2, 3, 4] → [a, b].Sublist sorted) ∧
    middleNode 5 H 0 = some 3 := by
  let cmp : Nat → Nat → Int := fun a b => (a % 2 : Nat) - (b % 2 : Nat)
  let H : Links Nat := ⟨fun n => (n + 1) % 5, fun n => (n + 4) % 5⟩
  have htotal : ∀ a b, cmp a b ≤ 0 ∨ cmp b a ≤ 0 := fun a b => by simp only [cmp]; omega
  have htrans : ∀ a b c, cmp a b ≤ 0 → cmp b c ≤ 0 → cmp a c ≤ 0 := fun a b c => by simp only [cmp]; omega
  have hring : Ring H 0 [1, 2, 3, 4] := ⟨by simp [Linked, H], by decide⟩
  have hall := sort_middle cmp htotal htrans H 0 [1, 2, 3, 4] hring 5 (by decide)
  exact ⟨cmp, H, htotal, htrans, hring, hall.1, hall.2 (by decide)⟩

end Nginx.Queue
