import Nginx.Core.Hash.Wildcard
import Nginx.Library.LongestMatch

namespace Nginx.Hash

-- The labels of a name, in their order
def labels (name : Bytes) : List Bytes := name.splitOn dot

theorem labels_ne_nil (name : Bytes) : labels name ≠ [] := List.splitOn_ne_nil dot name

theorem labels_append (front back : Bytes) : labels (front ++ dot :: back) = labels front ++ labels back :=
  List.splitOn_append_cons_self front back

theorem labels_label {label : Bytes} (h : dot ∉ label) : labels label = [label] := List.splitOn_eq_singleton h

theorem labels_cons {label : Bytes} (h : dot ∉ label) (rest : Bytes) :
    labels (label ++ dot :: rest) = label :: labels rest := by
  rw [labels_append, labels_label h]
  rfl

theorem not_mem_of_mem_labels {name label : Bytes} (h : label ∈ labels name) : dot ∉ label := by
  induction name generalizing label with
  | nil =>
      rw [labels, List.splitOn_nil, List.mem_singleton] at h
      simp [h]
  | cons c name ih =>
      rw [labels, List.splitOn_cons_eq_if_modifyHead] at h
      split at h
      · rcases List.mem_cons.mp h with rfl | h
        · simp
        · exact ih h
      · rename_i hc
        obtain ⟨first, rest, hsplit⟩ := List.exists_cons_of_ne_nil (labels_ne_nil name)
        rw [labels] at hsplit
        rw [hsplit, List.modifyHead_cons, List.mem_cons] at h
        rcases h with rfl | h
        · have hfirst := ih (by rw [labels, hsplit]; exact List.mem_cons_self)
          simp only [List.mem_cons, not_or]
          exact ⟨fun heq => hc (by simp [← heq]), hfirst⟩
        · exact ih (by rw [labels, hsplit]; exact List.mem_cons_of_mem _ h)

theorem labels_injective {a b : Bytes} (h : labels a = labels b) : a = b := by
  have hjoin : ∀ name, [dot].intercalate (labels name) = name := fun name => List.intercalate_splitOn dot
  rw [← hjoin a, ← hjoin b, h]

-- A name is one label, or its first label ends at a dot.
theorem first_label_cases (name : Bytes) :
    dot ∉ name ∨ ∃ label rest, dot ∉ label ∧ name = label ++ dot :: rest := by
  by_cases h : dot ∈ name
  · obtain ⟨label, rest, hname, hlabel⟩ := List.eq_append_cons_of_mem h
    exact Or.inr ⟨label, rest, hlabel, hname⟩
  · exact Or.inl h

theorem last_label_cases (name : Bytes) :
    dot ∉ name ∨ ∃ rest label, dot ∉ label ∧ name = rest ++ dot :: label := by
  rcases first_label_cases name.reverse with h | ⟨label, rest, hlabel, hname⟩
  · exact Or.inl (by simpa using h)
  · refine Or.inr ⟨rest.reverse, label.reverse, by simpa using hlabel, ?_⟩
    rw [← List.reverse_reverse name, hname]
    simp

theorem takeWhile_label {label : Bytes} (h : dot ∉ label) : label.takeWhile (· ≠ dot) = label := by
  induction label with
  | nil => rfl
  | cons c label ih =>
      rw [List.mem_cons, not_or] at h
      have hc : decide (c ≠ dot) = true := decide_eq_true fun heq => h.1 heq.symm
      rw [List.takeWhile_cons, if_pos hc, ih h.2]

theorem takeWhile_first {label : Bytes} (h : dot ∉ label) (rest : Bytes) :
    (label ++ dot :: rest).takeWhile (· ≠ dot) = label := by
  induction label with
  | nil => simp
  | cons c label ih =>
      rw [List.mem_cons, not_or] at h
      have hc : decide (c ≠ dot) = true := decide_eq_true fun heq => h.1 heq.symm
      rw [List.cons_append, List.takeWhile_cons, if_pos hc, ih h.2]

theorem drop_first (label rest : Bytes) : (label ++ dot :: rest).drop (label.length + 1) = rest := by
  rw [List.drop_append]
  simp

theorem lastLabel {label : Bytes} (h : dot ∉ label) (rest : Bytes) :
    ((rest ++ dot :: label).reverse.takeWhile (· ≠ dot)).reverse = label := by
  have hreverse : (rest ++ dot :: label).reverse = label.reverse ++ dot :: rest.reverse := by simp
  rw [hreverse, takeWhile_first (by simpa using h), List.reverse_reverse]

theorem lastLabel_all {label : Bytes} (h : dot ∉ label) :
    (label.reverse.takeWhile (· ≠ dot)).reverse = label := by
  rw [takeWhile_label (by simpa using h), List.reverse_reverse]

-- ngx_hash_find_wc_head over the labels from the last one on
def headWalk (heap : Heap) : Wildcard → List Bytes → Option Nat
  | _, [] => none
  | hwc, label :: rest => do
      let value ← hwc.find (hashKey label) label
      if value = 0 then some hwc.value
      else if value.testBit 1 then
        if rest = [] then
          if value.testBit 0 then some 0 else (heap.lookup (untag value)).map Wildcard.value
        else do
          let hwc ← heap.lookup (untag value)
          let value ← headWalk heap hwc rest
          if value ≠ 0 then some value else some hwc.value
      else if value.testBit 0 then
        if rest = [] then some 0 else some (untag value)
      else some value

-- ngx_hash_find_wc_tail over the labels from the first one on
def tailWalk (heap : Heap) : Wildcard → List Bytes → Option Nat
  | _, [] => none
  | hwc, label :: rest =>
      if rest = [] then some 0
      else do
        let value ← hwc.find (hashKey label) label
        if value = 0 then some hwc.value
        else if value.testBit 1 then do
          let hwc ← heap.lookup (untag value)
          let value ← tailWalk heap hwc rest
          if value ≠ 0 then some value else some hwc.value
        else some value

theorem findWcTail_eq (heap : Heap) (fuel : Nat) (hwc : Wildcard) (name : Bytes) (h : name.length < fuel) :
    findWcTail heap fuel hwc name = tailWalk heap hwc (labels name) := by
  induction fuel generalizing hwc name with
  | zero => omega
  | succ fuel ih =>
      rcases first_label_cases name with hname | ⟨label, rest, hlabel, rfl⟩
      · rw [findWcTail, labels_label hname, tailWalk]
        simp only [takeWhile_label hname, if_true]
      · have hne : ¬label.length = (label ++ dot :: rest).length := by
          rw [List.length_append, List.length_cons]
          omega
        have hrest := fun hwc => ih hwc rest (by
          rw [List.length_append, List.length_cons] at h
          omega)
        rw [findWcTail, labels_cons hlabel, tailWalk]
        simp only [takeWhile_first hlabel, if_neg hne, if_neg (labels_ne_nil rest), drop_first, hrest]

theorem findWcHead_eq (heap : Heap) (fuel : Nat) (hwc : Wildcard) (name : Bytes) (h : name.length < fuel) :
    findWcHead heap fuel hwc name = headWalk heap hwc (labels name).reverse := by
  induction fuel generalizing hwc name with
  | zero => omega
  | succ fuel ih =>
      rcases last_label_cases name with hname | ⟨rest, label, hlabel, rfl⟩
      · rw [findWcHead, labels_label hname, List.reverse_singleton, headWalk]
        simp only [lastLabel_all hname, Nat.sub_self, if_true]
      · have hn : (rest ++ dot :: label).length - label.length = rest.length + 1 := by
          rw [List.length_append, List.length_cons]
          omega
        have hlabels : (labels (rest ++ dot :: label)).reverse = label :: (labels rest).reverse := by
          rw [labels_append, labels_label hlabel, List.reverse_append, List.reverse_singleton,
            List.singleton_append]
        have htake : (rest ++ dot :: label).take (rest.length + 1 - 1) = rest := by
          rw [Nat.add_sub_cancel, List.take_left]
        have hne : ¬(labels rest).reverse = [] := by
          rw [List.reverse_eq_nil_iff]
          exact labels_ne_nil rest
        have hrest := fun hwc => ih hwc rest (by
          rw [List.length_append, List.length_cons] at h
          omega)
        rw [findWcHead, hlabels, headWalk]
        simp only [lastLabel hlabel, hn, htake, hrest, if_neg hne, Nat.succ_ne_zero, if_false]

end Nginx.Hash
