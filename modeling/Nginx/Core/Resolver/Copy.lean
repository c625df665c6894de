import Nginx.Core.Resolver

namespace Nginx.Core.Resolver

open ByteMemory DomainName

variable {buf : Memory} {last src fuel : Nat} {vs : List Nat} {ls : List Label}

-- Where the octet after the one at p is: behind the label, or where the pointer leads.
def next (buf : Memory) (p : Nat) : Nat :=
  if eitherBit (buf p) then target buf p else p + 1 + (buf p).toNat

-- The octets at which the measuring loop looks in at most i turns.
def visited (buf : Memory) (last : Nat) : Nat → Nat → List Nat
  | 0, _ => []
  | i + 1, p => p :: if buf p = 0 ∨ last ≤ next buf p then [] else visited buf last i (next buf p)

-- No pointer at the last octet of the response.
def PointersInside (buf : Memory) (last : Nat) (vs : List Nat) : Prop :=
  ∀ v ∈ vs, eitherBit (buf v) = true → v + 1 < last

-- No pointer leads to the end of a name.
def NoPointerToRoot (buf : Memory) (vs : List Nat) : Prop :=
  ∀ v ∈ vs, eitherBit (buf v) = true → buf (target buf v) ≠ 0

def NoLabel (buf : Memory) (vs : List Nat) : Prop := ∀ v ∈ vs, buf v = 0 ∨ eitherBit (buf v) = true

theorem and_c0 (b : UInt8) : (b.toNat &&& 0xc0 ≠ 0) ↔ eitherBit b = true := by
  revert b
  refine byte_cases ?_
  decide +kernel

theorem target_eq (buf : Memory) (p : Nat) :
    (((buf p).toNat &&& 0x3f) <<< 8) + (buf (p + 1)).toNat = target buf p := by
  have h63 : (buf p).toNat &&& 0x3f = (buf p).toNat % 64 := Nat.and_two_pow_sub_one_eq_mod _ 6
  rw [h63, Nat.shiftLeft_eq, target]

theorem toNat_eq_zero (b : UInt8) : b.toNat = 0 ↔ b = 0 := by
  constructor
  · intro h
    exact UInt8.toNat_inj.mp h
  · rintro rfl
    rfl

-- One turn of the measuring loop.
theorem measure_succ (buf : Memory) (last i p : Nat) (len : Int) :
    measure buf last (i + 1) p len =
      if buf p = 0 then (.done len, [p])
      else
        let reads := if eitherBit (buf p) then [p, p + 1] else [p]
        if last ≤ next buf p then (.invalid outOfResponse, reads)
        else
          let r := measure buf last i (next buf p)
            (if eitherBit (buf p) then len else len + (1 + (buf p).toNat))
          (r.1, reads ++ r.2) := by
  rw [measure]
  simp only [toNat_eq_zero, and_c0, target_eq, next]
  by_cases hp : eitherBit (buf p) = true <;> simp [hp]

-- A name that the loops read to its end: the octets they look at and the labels they meet.
inductive Walk (buf : Memory) (last : Nat) : Nat → List Nat → List Label → Prop
  | root {p : Nat} : buf p = 0 → Walk buf last p [p] []
  | label {p : Nat} {vs : List Nat} {ls : List Label} : buf p ≠ 0 → eitherBit (buf p) = false →
      p + 1 + (buf p).toNat < last → Walk buf last (p + 1 + (buf p).toNat) vs ls →
      Walk buf last p (p :: vs) (load buf (p + 1) (buf p).toNat :: ls)
  | pointer {p : Nat} {vs : List Nat} {ls : List Label} : eitherBit (buf p) = true →
      target buf p < last → Walk buf last (target buf p) vs ls → Walk buf last p (p :: vs) ls

theorem not_zero_of_eitherBit {b : UInt8} (h : eitherBit b = true) : b ≠ 0 := by
  rintro rfl
  exact absurd h (by decide)

theorem lt_of_eitherBit {b : UInt8} (h : eitherBit b = false) : b.toNat < 64 := by
  simpa [eitherBit] using h

theorem Walk.denotes {p : Nat} (h : Walk buf last p vs ls) : Denotes eitherBit buf p ls := by
  induction h with
  | root h0 => exact .root h0
  | label h0 h1 _ _ ih => exact .label h0 (lt_of_eitherBit h1) ih
  | pointer h0 _ _ ih => exact .pointer h0 ih

theorem Walk.nil_of_zero {p : Nat} (h : Walk buf last p vs ls) (h0 : buf p = 0) : ls = [] := by
  cases h with
  | root _ => rfl
  | label h _ _ _ => exact absurd h0 h
  | pointer h _ _ => exact absurd h0 (not_zero_of_eitherBit h)

-- A walk without labels ends at the root at once, or behind pointers.
theorem Walk.root_of_nil {p : Nat} (h : Walk buf last p vs ls) (hroot : NoPointerToRoot buf vs)
    (hp : buf p ≠ 0) : ls ≠ [] := by
  induction h with
  | root h0 => exact absurd h0 hp
  | label _ _ _ _ _ => exact List.cons_ne_nil _ _
  | pointer h0 _ _ ih =>
      exact ih (fun v hv => hroot v (List.mem_cons_of_mem _ hv)) (hroot _ List.mem_cons_self h0)

theorem Walk.nil_of_noLabel {p : Nat} (h : Walk buf last p vs ls) (hno : NoLabel buf vs) : ls = [] := by
  induction h with
  | root _ => rfl
  | label h0 h1 _ _ _ =>
      cases hno _ List.mem_cons_self with
      | inl h => exact absurd h h0
      | inr h => rw [h1] at h; exact absurd h (by decide)
  | pointer _ _ _ ih => exact ih fun v hv => hno v (List.mem_cons_of_mem _ hv)

-- The measuring loop ends at done only on a walk, and counts its labels.
theorem measure_done {i p : Nat} {len len' : Int} {reads : List Nat}
    (h : measure buf last i p len = (.done len', reads)) :
    ∃ ls, Walk buf last p (visited buf last i p) ls ∧ len' = len + span ls ∧
      (visited buf last i p).length ≤ i := by
  induction i generalizing p len reads with
  | zero =>
      rw [measure] at h
      cases h
  | succ i ih =>
      rw [measure_succ] at h
      rw [visited]
      by_cases h0 : buf p = 0
      · rw [if_pos h0] at h
        cases h
        rw [if_pos (.inl h0)]
        exact ⟨[], .root h0, by simp, by simp⟩
      rw [if_neg h0] at h
      by_cases hq : last ≤ next buf p
      · dsimp only at h
        rw [if_pos hq] at h
        cases h
      dsimp only at h
      rw [if_neg hq] at h
      obtain ⟨ls, hw, hlen, hi⟩ := ih (Prod.ext (Prod.mk.inj h).1 rfl)
      rw [if_neg (by simp [h0, hq])]
      have hlt : next buf p < last := Nat.lt_of_not_le hq
      cases hp : eitherBit (buf p) with
      | false =>
          simp only [next, hp, Bool.false_eq_true, if_false] at hw hlen hlt ⊢
          refine ⟨_, .label h0 hp hlt hw, ?_, ?_⟩
          · rw [hlen, span_cons, load_length]
            omega
          · simp only [next, hp, Bool.false_eq_true, if_false] at hi
            simpa using hi
      | true =>
          simp only [next, hp, if_true] at hw hlen hlt ⊢
          refine ⟨ls, .pointer hp hlt hw, hlen, ?_⟩
          simp only [next, hp, if_true] at hi
          simpa using hi

-- What the measuring loop says of a walk, within its 128 turns and beyond.
theorem measure_walk {i p : Nat} (h : Walk buf last p vs ls) (len : Int) :
    (measure buf last i p len).1 = if vs.length ≤ i then .done (len + span ls) else .invalid pointersLoop := by
  induction h generalizing i len with
  | root h0 =>
      cases i with
      | zero => rfl
      | succ i => rw [measure_succ, if_pos h0]; simp
  | @label p vs ls h0 h1 h2 _ ih =>
      cases i with
      | zero => rfl
      | succ i =>
          have hnext : next buf p = p + 1 + (buf p).toNat := by simp [next, h1]
          rw [measure_succ, if_neg h0, if_neg (by omega)]
          simp only [hnext, h1, Bool.false_eq_true, if_false, ih, List.length_cons, Nat.add_le_add_iff_right, span_cons, load_length]
          congr 2
          omega
  | @pointer p vs ls h0 h1 _ ih =>
      cases i with
      | zero => rfl
      | succ i =>
          have hnext : next buf p = target buf p := by simp [next, h0]
          rw [measure_succ, if_neg (not_zero_of_eitherBit h0), if_neg (by omega)]
          simp only [hnext, h0, if_true, ih, List.length_cons, Nat.add_le_add_iff_right]

theorem measure_reads {i p : Nat} (len : Int) (hp : p < last)
    (hin : PointersInside buf last (visited buf last i p)) :
    ∀ o ∈ (measure buf last i p len).2, o < last := by
  induction i generalizing p len with
  | zero => simp [measure]
  | succ i ih =>
      rw [visited] at hin
      have hhead : ∀ o ∈ (if eitherBit (buf p) then [p, p + 1] else [p]), o < last := by
        intro o ho
        cases hb : eitherBit (buf p) with
        | false =>
            simp only [hb, Bool.false_eq_true, if_false, List.mem_singleton] at ho
            omega
        | true =>
            have h1 := hin p List.mem_cons_self hb
            simp only [hb, if_true, List.mem_cons, List.not_mem_nil, or_false] at ho
            omega
      rw [measure_succ]
      by_cases h0 : buf p = 0
      · rw [if_pos h0]
        simpa using hp
      rw [if_neg h0]
      by_cases hq : last ≤ next buf p
      · dsimp only
        rw [if_pos hq]
        exact hhead
      · dsimp only
        rw [if_neg hq]
        rw [if_neg (by simp [h0, hq])] at hin
        intro o ho
        cases List.mem_append.mp ho with
        | inl h => exact hhead o h
        | inr h => exact ih _ (Nat.lt_of_not_le hq) (fun v hv => hin v (List.mem_cons_of_mem _ hv)) o h

-- The copying loop on a walk: it ends, reads what the walk looks at, and leaves the labels.
theorem copyLoop_walk {p : Nat} (h : Walk buf last p vs ls) (hp : buf p ≠ 0) :
    ∃ out reads, (∀ fuel dst, vs.length ≤ fuel →
        copyLoop buf fuel (buf p).toNat (p + 1) dst = some (dst ++ out, reads)) ∧
      (PointersInside buf last vs → ∀ o ∈ reads, o < last) ∧
      (NoPointerToRoot buf vs → out = dotted ls) := by
  induction h with
  | root h0 => exact absurd h0 hp
  | @label p vs ls h0 h1 h2 hw ih =>
      have hhead : ∀ o ∈ (List.range (buf p).toNat).map (p + 1 + ·) ++ [p + 1 + (buf p).toNat], o < last := by
        intro o ho
        simp only [List.mem_append, List.mem_map, List.mem_range, List.mem_singleton] at ho
        omega
      have hc0 : ¬ ((buf p).toNat &&& 0xc0 ≠ 0) := by rw [and_c0, h1]; decide
      by_cases hn : buf (p + 1 + (buf p).toNat) = 0
      · refine ⟨load buf (p + 1) (buf p).toNat, _, fun fuel dst hfuel => ?_, fun _ => hhead, fun _ => ?_⟩
        · obtain ⟨fuel, rfl⟩ : ∃ f, fuel = f + 1 := ⟨fuel - 1, by simp only [List.length_cons] at hfuel; omega⟩
          rw [copyLoop, if_neg hc0]
          dsimp only
          rw [if_pos ((toNat_eq_zero _).mpr hn)]
        · rw [hw.nil_of_zero hn]
          rfl
      · obtain ⟨out, reads, hrun, hreads, hout⟩ := ih hn
        refine ⟨load buf (p + 1) (buf p).toNat ++ 46 :: out,
          (List.range (buf p).toNat).map (p + 1 + ·) ++ [p + 1 + (buf p).toNat] ++ reads,
          fun fuel dst hfuel => ?_, fun hin o ho => ?_, fun hroot => ?_⟩
        · obtain ⟨fuel, rfl⟩ : ∃ f, fuel = f + 1 := ⟨fuel - 1, by simp only [List.length_cons] at hfuel; omega⟩
          have hcat : dst ++ load buf (p + 1) (buf p).toNat ++ [46] ++ out
              = dst ++ (load buf (p + 1) (buf p).toNat ++ 46 :: out) := by simp
          rw [copyLoop, if_neg hc0]
          dsimp only
          rw [if_neg (mt (toNat_eq_zero _).mp hn), hrun fuel _ (by simpa using hfuel), hcat]
          rfl
        · cases List.mem_append.mp ho with
          | inl h => exact hhead o h
          | inr h => exact hreads (fun v hv => hin v (List.mem_cons_of_mem _ hv)) o h
        · have htail : NoPointerToRoot buf vs := fun v hv => hroot v (List.mem_cons_of_mem _ hv)
          rw [hout htail, dotted_cons _ (hw.root_of_nil htail hn)]
  | @pointer p vs ls h0 h1 hw ih =>
      have hhead : PointersInside buf last (p :: vs) → ∀ o ∈ [p + 1, target buf p], o < last := by
        intro hin o ho
        have h := hin p List.mem_cons_self h0
        simp only [List.mem_cons, List.not_mem_nil, or_false] at ho
        omega
      by_cases hn : buf (target buf p) = 0
      · refine ⟨[], [p + 1, target buf p], fun fuel dst hfuel => ?_, hhead, fun hroot => ?_⟩
        · obtain ⟨fuel, rfl⟩ : ∃ f, fuel = f + 1 := ⟨fuel - 1, by simp only [List.length_cons] at hfuel; omega⟩
          rw [copyLoop, if_pos ((and_c0 _).mpr h0), List.append_nil]
          simp only [target_eq]
          rw [if_pos ((toNat_eq_zero _).mpr hn)]
        · exact absurd hn (hroot p List.mem_cons_self h0)
      · obtain ⟨out, reads, hrun, hreads, hout⟩ := ih hn
        refine ⟨out, [p + 1, target buf p] ++ reads, fun fuel dst hfuel => ?_, fun hin o ho => ?_, fun hroot => ?_⟩
        · obtain ⟨fuel, rfl⟩ : ∃ f, fuel = f + 1 := ⟨fuel - 1, by simp only [List.length_cons] at hfuel; omega⟩
          rw [copyLoop, if_pos ((and_c0 _).mpr h0)]
          simp only [target_eq]
          rw [if_neg (mt (toNat_eq_zero _).mp hn), hrun fuel dst (by simpa using hfuel)]
          rfl
        · cases List.mem_append.mp ho with
          | inl h => exact hhead hin o h
          | inr h => exact hreads (fun v hv => hin v (List.mem_cons_of_mem _ hv)) o h
        · exact hout fun v hv => hroot v (List.mem_cons_of_mem _ hv)

-- A label met behind a pointer chain that ends the name leaves a dot too many.
def Proper (buf : Memory) (vs : List Nat) : Prop := NoLabel buf vs ∨ NoPointerToRoot buf vs

theorem Walk.nil_or_dotted {p : Nat} (h : Walk buf last p vs ls) (hproper : Proper buf vs) :
    ls = [] ∨ NoPointerToRoot buf vs :=
  hproper.imp_left h.nil_of_noLabel

-- One spec for the whole function: it returns whatever its fuel, and what it returns.
theorem copy_spec (buf : Memory) (src last : Nat) (name alloc : Bool) (hsrc : src < last) :
    ∃ r, (∀ fuel, 128 ≤ fuel → copy fuel buf src last name alloc = some r) ∧
      (PointersInside buf last (visited buf last 128 src) → ∀ o ∈ r.reads, o < last) ∧
      (Proper buf (visited buf last 128 src) → r.dst.length ≤ r.allocated ∧
        (r.rc = .ok → name = true → ∃ ls, Denotes eitherBit buf src ls ∧ r.name = some (dotted ls))) := by
  have hmreads := @measure_reads buf last 128 src (-1) hsrc
  cases hm : measure buf last 128 src (-1) with
  | mk m reads =>
  rw [hm] at hmreads
  cases m with
  | invalid err =>
      exact ⟨⟨.error, none, 0, [], reads⟩, fun fuel _ => by rw [copy, hm], hmreads,
        fun _ => ⟨Nat.le_refl _, fun h => Rc.noConfusion h⟩⟩
  | done len =>
      obtain ⟨ls, hw, hlen, hi⟩ := measure_done hm
      cases name with
      | false =>
          exact ⟨⟨.ok, none, 0, [], reads⟩, fun fuel _ => by rw [copy, hm]; rfl, hmreads,
            fun _ => ⟨Nat.le_refl _, fun _ h => Bool.noConfusion h⟩⟩
      | true =>
          by_cases hnil : ls = []
          · subst hnil
            have hneg : len = -1 := by rw [hlen, span_nil]; rfl
            refine ⟨⟨.ok, some [], 0, [], reads⟩, fun fuel _ => ?_, hmreads, fun _ => ?_⟩
            · rw [copy, hm]
              simp [hneg]
            · exact ⟨Nat.le_refl _, fun _ _ => ⟨[], hw.denotes, rfl⟩⟩
          have hspan := dotted_length hnil
          have hne : len ≠ -1 := by
            have hpos : span ls ≠ 0 := by omega
            omega
          cases alloc with
          | false =>
              refine ⟨⟨.error, none, 0, [], reads⟩, fun fuel _ => ?_, hmreads, fun _ => ?_⟩
              · rw [copy, hm]
                simp [hne]
              · exact ⟨Nat.le_refl _, fun h => Rc.noConfusion h⟩
          | true =>
              have hp : buf src ≠ 0 := by
                intro h0
                exact hnil (hw.nil_of_zero h0)
              obtain ⟨out, rest, hrun, hrest, hout⟩ := copyLoop_walk hw hp
              refine ⟨⟨.ok, some out, len.toNat, out, reads ++ src :: rest⟩, fun fuel hf => ?_,
                fun hin o ho => ?_, fun hproper => ?_⟩
              · rw [copy, hm]
                simp [hne, hrun fuel [] (by omega)]
              · cases List.mem_append.mp ho with
                | inl h => exact hmreads hin o h
                | inr h =>
                    cases List.mem_cons.mp h with
                    | inl h => omega
                    | inr h => exact hrest hin o h
              · have hd := hout ((hw.nil_or_dotted hproper).resolve_left hnil)
                subst hd
                refine ⟨?_, fun _ _ => ⟨ls, hw.denotes, rfl⟩⟩
                show (dotted ls).length ≤ len.toNat
                omega

-- A walk that never leads to the root by a pointer gives its labels, if its octets fit the limit.
theorem copy_walk (h : Walk buf last src vs ls) (hroot : NoPointerToRoot buf vs) :
    ∃ r, copy 128 buf src last true true = some r ∧
      (vs.length ≤ 128 → r.rc = .ok ∧ r.name = some (dotted ls)) ∧ (128 < vs.length → r.rc = .error) := by
  have hm := measure_walk h (-1) (i := 128)
  cases hr : measure buf last 128 src (-1) with
  | mk m reads =>
  rw [hr] at hm
  dsimp only at hm
  by_cases hlen : vs.length ≤ 128
  · rw [if_pos hlen] at hm
    subst hm
    by_cases hnil : ls = []
    · subst hnil
      refine ⟨⟨.ok, some [], 0, [], reads⟩, by simp [copy, hr], fun _ => ⟨rfl, rfl⟩, fun h => ?_⟩
      omega
    · have hspan := dotted_length hnil
      have hne : -1 + (span ls : Int) ≠ -1 := by omega
      obtain ⟨out, rest, hrun, _, hout⟩ := copyLoop_walk h fun h0 => hnil (h.nil_of_zero h0)
      refine ⟨⟨.ok, some out, (-1 + (span ls : Int)).toNat, out, reads ++ src :: rest⟩, ?_, fun _ => ⟨rfl, ?_⟩, fun h => ?_⟩
      · rw [copy, hr]
        simp [hne, hrun 128 [] hlen]
      · rw [hout hroot]
      · omega
  · rw [if_neg hlen] at hm
    subst hm
    exact ⟨⟨.error, none, 0, [], reads⟩, by rw [copy, hr], fun h => absurd h hlen, fun _ => rfl⟩

-- The call as it would be for names that are folded to lower case and never touch a dot.
def Decompresses (buf : Memory) (src last : Nat) (name alloc : Bool) : Prop :=
  ∃ r, (∀ fuel, 128 ≤ fuel → copy fuel buf src last name alloc = some r) ∧
    (∀ o ∈ r.reads, o < last) ∧ r.dst.length ≤ r.allocated ∧
    ∀ text, r.rc = .ok → r.name = some text → ∃ ls, Denotes bothBits buf src ls ∧
      text = (dotted ls).map tolower ∧ text.head? ≠ some 46 ∧ text.getLast? ≠ some 46

theorem copy_decompresses (buf : Memory) (src last : Nat) (name alloc : Bool) (hsrc : src < last) :
    ∃ r, (∀ fuel, 128 ≤ fuel → copy fuel buf src last name alloc = some r) ∧
      (PointersInside buf last (visited buf last 128 src) → ∀ o ∈ r.reads, o < last) ∧
      (Proper buf (visited buf last 128 src) → r.dst.length ≤ r.allocated ∧
        (r.rc = .ok → name = true → ∃ ls, Denotes eitherBit buf src ls ∧
          (∀ ls', Denotes bothBits buf src ls' → ls' = ls) ∧ r.name = some (dotted ls) ∧
          ((∀ l ∈ ls, 46 ∉ l) → (dotted ls).head? ≠ some 46 ∧ (dotted ls).getLast? ≠ some 46))) := by
  obtain ⟨r, hrun, hreads, hname⟩ := copy_spec buf src last name alloc hsrc
  refine ⟨r, hrun, hreads, fun hproper => ?_⟩
  obtain ⟨hdst, hok⟩ := hname hproper
  refine ⟨hdst, fun hrc hwant => ?_⟩
  obtain ⟨ls, hls, htext⟩ := hok hrc hwant
  have hne := hls.labels_ne_nil
  exact ⟨ls, hls, fun ls' h => hls.unique_of_bothBits h, htext,
    fun hdot => ⟨dotted_head hne hdot, dotted_last hne hdot⟩⟩

-- A response that holds the bytes, and zeros behind them.
def memoryOf (bs : Bytes) : Memory := fun p => bs.getD p 0

-- "www.a" at 4, its last label behind a pointer to the start.
theorem copy_decompresses_pointer :
    ∃ r, (∀ fuel, 128 ≤ fuel → copy fuel (memoryOf [1, 97, 0, 0, 3, 119, 119, 119, 192, 0]) 4 10 true true = some r) ∧
      (∀ o ∈ r.reads, o < 10) ∧ r.dst.length ≤ r.allocated := by
  obtain ⟨r, hrun, hreads, hname⟩ :=
    copy_decompresses (memoryOf [1, 97, 0, 0, 3, 119, 119, 119, 192, 0]) 4 10 true true (by decide)
  have hv : visited (memoryOf [1, 97, 0, 0, 3, 119, 119, 119, 192, 0]) 10 128 4 = [4, 8, 0, 2] := by decide
  rw [hv] at hreads hname
  refine ⟨r, hrun, hreads ?_, (hname (.inr ?_)).1⟩
  · unfold PointersInside
    decide
  · unfold NoPointerToRoot
    decide

theorem copy_keeps_case : ¬ ∀ buf src last, src < last → Decompresses buf src last true true := by
  intro h
  obtain ⟨r, hrun, _, _, hname⟩ := h (memoryOf [1, 65, 0]) 0 3 (by decide)
  have hcopy : copy 128 (memoryOf [1, 65, 0]) 0 3 true true = some ⟨.ok, some [65], 1, [65], [0, 2, 0, 1, 2]⟩ := by
    decide
  have hr := (hrun 128 (Nat.le_refl _)).symm.trans hcopy
  cases hr
  obtain ⟨ls, _, htext, _⟩ := hname [65] rfl rfl
  have hmem : (65 : UInt8) ∈ (dotted ls).map tolower := htext ▸ List.mem_cons_self
  obtain ⟨b, _, hb⟩ := List.mem_map.mp hmem
  have hupper : ∀ b : UInt8, tolower b ≠ 65 := byte_cases (by decide +kernel)
  exact hupper b hb

end Nginx.Core.Resolver
