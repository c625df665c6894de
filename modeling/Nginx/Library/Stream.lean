import Mathlib

-- Machines that read a stream one element after the other and emit what they find in it.
namespace Stream

variable {σ α β : Type} (step : σ → α → Option (σ × List β))

def feed : σ → List α → Option (σ × List β)
  | s, [] => some (s, [])
  | s, a :: as => do
      let (s', out) ← step s a
      let (s'', outs) ← feed s' as
      return (s'', out ++ outs)

variable {step} {s s' s'' : σ} {a : α} {as bs : List α} {out out' : List β}

theorem feed_cons {t : σ} {o : List β} (h : step s a = some (t, o)) (h' : feed step t as = some (s'', out')) :
    feed step s (a :: as) = some (s'', o ++ out') := by
  simp only [feed, h, h', Option.bind_eq_bind, Option.bind_some]
  rfl

theorem feed_cons_none (h : step s a = some (s', out)) (h' : feed step s' as = none) :
    feed step s (a :: as) = none := by
  simp [feed, h, h']

theorem feed_one (h : step s a = some (s', out)) : feed step s [a] = some (s', out) := by
  rw [feed_cons h rfl, List.append_nil]

theorem feed_append (h : feed step s as = some (s', out)) (h' : feed step s' bs = some (s'', out')) :
    feed step s (as ++ bs) = some (s'', out ++ out') := by
  induction as generalizing s out with
  | nil =>
      rw [feed, Option.some.injEq, Prod.mk.injEq] at h
      obtain ⟨rfl, rfl⟩ := h
      exact h'
  | cons a as ih =>
      simp only [feed, Option.bind_eq_bind, Option.bind_eq_some_iff] at h
      obtain ⟨⟨t, o⟩, hstep, ⟨u, os⟩, hfeed, h⟩ := h
      cases h
      rw [List.cons_append, List.append_assoc]
      exact feed_cons hstep (ih hfeed)

theorem feed_append_none (h : feed step s as = some (s', out)) (h' : feed step s' bs = none) :
    feed step s (as ++ bs) = none := by
  induction as generalizing s out with
  | nil =>
      rw [feed, Option.some.injEq, Prod.mk.injEq] at h
      obtain ⟨rfl, rfl⟩ := h
      exact h'
  | cons a as ih =>
      simp only [feed, Option.bind_eq_bind, Option.bind_eq_some_iff] at h
      obtain ⟨⟨t, o⟩, hstep, ⟨u, os⟩, hfeed, h⟩ := h
      cases h
      exact feed_cons_none hstep (ih hfeed)

-- Both at once
theorem feed_append_map (h : feed step s as = some (s', out)) (bs : List α) :
    feed step s (as ++ bs) = (feed step s' bs).map fun r => (r.1, out ++ r.2) := by
  rcases hrest : feed step s' bs with _ | ⟨t, o⟩
  · exact feed_append_none h hrest
  · exact feed_append h hrest

theorem feed_none_append (h : feed step s as = none) (bs : List α) : feed step s (as ++ bs) = none := by
  induction as generalizing s with
  | nil => cases h
  | cons a as ih =>
      rw [List.cons_append]
      rcases hstep : step s a with _ | ⟨t, o⟩
      · simp [feed, hstep]
      · rcases hfeed : feed step t as with _ | ⟨u, os⟩
        · exact feed_cons_none hstep (ih hfeed)
        · rw [feed_cons hstep hfeed] at h
          cases h

theorem feed_split (h : feed step s (as ++ bs) = some (s'', out)) :
    ∃ s' out₁ out₂, feed step s as = some (s', out₁) ∧ feed step s' bs = some (s'', out₂) ∧ out = out₁ ++ out₂ := by
  rcases hfeed : feed step s as with _ | ⟨t, o⟩
  · rw [feed_none_append hfeed] at h
    cases h
  · rcases hrest : feed step t bs with _ | ⟨u, os⟩
    · rw [feed_append_none hfeed hrest] at h
      cases h
    · rw [feed_append hfeed hrest] at h
      cases h
      exact ⟨t, o, os, rfl, hrest, rfl⟩

-- A stream that comes in pieces; what is left of a piece behind the end of the stream is not read.
variable (step) (reopen : σ → σ)

def feedPieces : σ → List (List α) → Option (σ × List β)
  | s, [] => some (s, [])
  | s, piece :: pieces => do
      let (s', out) ← feed step s piece
      let (s'', outs) ← feedPieces (reopen s') pieces
      return (s'', out ++ outs)

variable {step reopen} {c : σ → Prop}

theorem feedPieces_cons {piece : List α} (h : feed step s piece = some (s', out)) (pieces : List (List α)) :
    feedPieces step reopen s (piece :: pieces) =
      (feedPieces step reopen (reopen s') pieces).map fun r => (r.1, out ++ r.2) := by
  rcases hrest : feedPieces step reopen (reopen s') pieces with _ | ⟨t, o⟩ <;> simp [feedPieces, h, hrest]

theorem feedPieces_none {piece : List α} (h : feed step s piece = none) (pieces : List (List α)) :
    feedPieces step reopen s (piece :: pieces) = none := by
  simp [feedPieces, h]

theorem closed_feed (hclosed : ∀ s a s' out, step s a = some (s', out) → c s → c s')
    (h : feed step s as = some (s', out)) (hs : c s) : c s' := by
  induction as generalizing s out with
  | nil =>
      rw [feed, Option.some.injEq, Prod.mk.injEq] at h
      obtain ⟨rfl, rfl⟩ := h
      exact hs
  | cons a as ih =>
      simp only [feed, Option.bind_eq_bind, Option.bind_eq_some_iff] at h
      obtain ⟨⟨t, o⟩, hstep, ⟨u, os⟩, hfeed, h⟩ := h
      cases h
      exact ih hfeed (hclosed _ _ _ _ hstep hs)

-- The pieces do not matter while the machine stays open.
theorem feedPieces_of_open (hclosed : ∀ s a s' out, step s a = some (s', out) → c s → c s')
    (hreopen : ∀ s, ¬ c s → reopen s = s) {pieces : List (List α)}
    (h : feed step s pieces.flatten = some (s', out)) (hopen : ¬ c s') :
    feedPieces step reopen s pieces = some (s', out) := by
  induction pieces generalizing s out with
  | nil => exact h
  | cons piece pieces ih =>
      rw [List.flatten_cons] at h
      obtain ⟨t, o, os, hpiece, hrest, rfl⟩ := feed_split h
      have ht : ¬ c t := fun ht => hopen (closed_feed hclosed hrest ht)
      rw [feedPieces_cons hpiece, hreopen t ht, ih hrest]
      rfl

end Stream
