import Nginx.Core.Resolver.Response
import Nginx.Core.Resolver.Copy

namespace Nginx.Core.Resolver

open ByteMemory

variable {r : Resolver} {m : Allocs} {buf : Memory} {n ident code nan ans rn : Nat}

-- A node of the resolver whose ident the walk looks for.
def Queued (r : Resolver) (ident : Nat) : Prop := ∃ rn ∈ r.nameResendQueue, (r.node rn).ident = ident

theorem findIdent_treated (queue : List Nat) :
    ∀ e ∈ (findIdent r ident queue).1, ∃ rn ∈ queue, e = .node rn := by
  induction queue with
  | nil => simp [findIdent]
  | cons q queue ih =>
      intro e he
      rw [findIdent] at he
      by_cases hq : (r.node q).ident = ident
      · rw [if_pos hq] at he
        exact ⟨q, List.mem_cons_self, List.mem_singleton.mp he⟩
      · rw [if_neg hq] at he
        cases List.mem_cons.mp he with
        | inl h => exact ⟨q, List.mem_cons_self, h⟩
        | inr h =>
            obtain ⟨rn, hrn, heq⟩ := ih e h
            exact ⟨rn, List.mem_cons_of_mem _ hrn, heq⟩

theorem findIdent_found (queue : List Nat) :
    (findIdent r ident queue).2 = true ↔ ∃ rn ∈ queue, (r.node rn).ident = ident := by
  induction queue with
  | nil => simp [findIdent]
  | cons q queue ih =>
      rw [findIdent]
      by_cases hq : (r.node q).ident = ident
      · rw [if_pos hq]
        exact ⟨fun _ => ⟨q, List.mem_cons_self, hq⟩, fun _ => rfl⟩
      · rw [if_neg hq, List.exists_mem_cons_iff]
        simp only [hq, false_or]
        exact ih

-- The walk keeps to the nodes exactly when it finds one before it is at the sentinel.
theorem formerrLoop_sentinel (turns : Nat) (h : 0 < turns) :
    Element.nameSentinel ∉ (formerrLoop r ident turns).1 ↔ Queued r ident := by
  obtain ⟨turns, rfl⟩ : ∃ t, turns = t + 1 := ⟨turns - 1, by omega⟩
  have hfound := @findIdent_found r ident r.nameResendQueue
  have htreated := @findIdent_treated r ident r.nameResendQueue
  rw [formerrLoop]
  cases hfind : findIdent r ident r.nameResendQueue with
  | mk treated found =>
  rw [hfind] at hfound htreated
  cases found with
  | true =>
      refine ⟨fun _ => hfound.mp rfl, fun _ hmem => ?_⟩
      obtain ⟨rn, _, heq⟩ := htreated _ hmem
      exact Element.noConfusion heq
  | false =>
      have hnot : ¬ Queued r ident := fun h => Bool.noConfusion (hfound.mpr h)
      refine ⟨fun hmem => absurd ?_ hmem, fun h => absurd h hnot⟩
      by_cases hs : r.sentinelIdent = ident <;> simp [hs]

theorem formerrLoop_treated (turns : Nat) : ∀ e ∈ (formerrLoop r ident turns).1,
    e = .nameSentinel ∨ ∃ rn ∈ r.nameResendQueue, e = .node rn := by
  induction turns with
  | zero => exact fun e he => .inr (findIdent_treated _ e he)
  | succ turns ih =>
      intro e he
      rw [formerrLoop] at he
      have htreated := @findIdent_treated r ident r.nameResendQueue
      cases hfind : findIdent r ident r.nameResendQueue with
      | mk treated found =>
      rw [hfind] at he htreated
      cases found with
      | true => exact .inr (htreated e he)
      | false =>
          by_cases hs : r.sentinelIdent = ident
          · simp only [hs, Bool.false_eq_true, if_false, if_true, List.mem_append, List.mem_singleton] at he
            exact he.symm.imp_right (htreated e)
          · simp only [hs, Bool.false_eq_true, if_false, List.mem_append, List.mem_cons] at he
            obtain h | h | h := he
            · exact .inr (htreated e h)
            · exact .inl h
            · exact ih e h

-- The nodes that the question is looked up to, when they have a query.
def withQuery (r : Resolver) (rn : Nat) : Option Nat := if (r.node rn).query = none then none else some rn

def nameNode (r : Resolver) (m : Allocs) (buf : Memory) (n : Nat) : Option Nat := do
  let c ← copy 128 buf 12 n true m.name
  if c.rc ≠ .ok then none
  else
    let rn ← lookupName r (c.name.getD []) (crc32Short (c.name.getD [])).toNat r.nameRbtree
    withQuery r rn

def addrNode (r : Resolver) (m : Allocs) (buf : Memory) (n : Nat) : Option Nat := do
  let c ← copy 128 buf 12 n false m.name
  if c.rc ≠ .ok then none
  else
    let (addr, i) ← ptrAddr buf 4 0 12 0
    if load buf i 14 ≠ inAddrArpa then none
    else
      let rn ← lookupAddr r addr r.addrRbtree
      withQuery r rn

def questionNode (r : Resolver) (m : Allocs) (buf : Memory) (n : Nat) : Option Nat := do
  if word buf 4 ≠ 1 then none
  else
    let i ← skipQuestion buf n (n - 12) 12
    if n < i + 1 + 4 + word buf 6 * (2 + 10) ∨ word buf (i + 3) ≠ 1 then none
    else if word buf (i + 1) = 1 then nameNode r m buf n
    else if word buf (i + 1) = 12 then addrNode r m buf n
    else none

-- What the error paths do with a node that was looked up, if there is one.
def Replies (r : Resolver) (ident : Nat) (found : Option Nat) (reply : Reply) : Prop :=
  (∀ e, e ∈ reply.treated ↔ ∃ rn, found = some rn ∧ e = .node rn) ∧
    ∀ rn ctx state name addrs, .handler rn ctx state name addrs ∈ reply.calls →
      ctx ∈ (r.node rn).waiting ∧ (r.node rn).query ≠ none ∧ (r.node rn).ident = ident

theorem replies_none {found : Option Nat} {calls : List Call} (hfound : found = none)
    (h : ∀ rn ctx state name addrs, .handler rn ctx state name addrs ∉ calls) : Replies r ident found ⟨[], calls⟩ :=
  ⟨fun e => by simp [hfound], fun rn ctx state name addrs hmem => absurd hmem (h rn ctx state name addrs)⟩

theorem replies_wrong {calls : List Call} (h : ∀ rn ctx state name addrs, .handler rn ctx state name addrs ∉ calls) :
    Replies r ident (some rn) ⟨[.node rn], calls⟩ :=
  ⟨fun e => by simp, fun rn ctx state name addrs hmem => absurd hmem (h rn ctx state name addrs)⟩

theorem replies_code (hq : (r.node rn).query ≠ none) (hident : ident = (r.node rn).ident) (code : Nat) :
    Replies r ident (some rn) ⟨[.node rn], answerCode r rn code⟩ := by
  refine ⟨fun e => by simp, fun rn' ctx state name addrs hmem => ?_⟩
  simp only [answerCode, List.mem_append, List.mem_cons, List.mem_map, reduceCtorEq, List.not_mem_nil,
    or_false, false_or, Call.handler.injEq] at hmem
  obtain ⟨ctx', hctx, rfl, rfl, _⟩ := hmem
  exact ⟨hctx, hq, hident.symm⟩

theorem processA_error (hcode : code ≠ 0) (hn : 12 < n) :
    ∃ scan, (∀ fuel, 128 ≤ fuel → processA fuel r m buf n ident code nan ans = some scan) ∧
      Replies r ident (nameNode r m buf n) scan.reply := by
  obtain ⟨c, hrun, _⟩ := copy_spec buf 12 n true m.name hn
  have hc := hrun 128 (Nat.le_refl _)
  by_cases hrc : c.rc = .ok
  · cases hlook : lookupName r (c.name.getD []) (crc32Short (c.name.getD [])).toNat r.nameRbtree with
    | none =>
        have hnode : nameNode r m buf n = none := by simp [nameNode, hc, hrc, hlook]
        refine ⟨_, fun fuel hf => by simp [processA, hrun fuel hf, hrc, hlook]; rfl, replies_none hnode ?_⟩
        simp
    | some rn =>
        by_cases hq : (r.node rn).query = none
        · have hnode : nameNode r m buf n = none := by simp [nameNode, hc, hrc, hlook, withQuery, hq]
          refine ⟨_, fun fuel hf => by simp [processA, hrun fuel hf, hrc, hlook, hq]; rfl, replies_none hnode ?_⟩
          simp
        have hnode : nameNode r m buf n = some rn := by simp [nameNode, hc, hrc, hlook, withQuery, hq]
        rw [hnode]
        by_cases hident : ident = (r.node rn).ident
        · refine ⟨_, fun fuel hf => by simp [processA, hrun fuel hf, hrc, hlook, hq, hident, hcode]; rfl, ?_⟩
          exact replies_code hq hident code
        · refine ⟨_, fun fuel hf => by simp [processA, hrun fuel hf, hrc, hlook, hq, hident]; rfl, ?_⟩
          exact replies_wrong (by simp)
  · have hnode : nameNode r m buf n = none := by simp [nameNode, hc, hrc]
    refine ⟨_, fun fuel hf => by simp [processA, hrun fuel hf, hrc]; rfl, replies_none hnode ?_⟩
    simp

theorem processPtr_error (hcode : code ≠ 0) (hn : 12 < n) :
    ∃ reply, (∀ fuel, 128 ≤ fuel → processPtr fuel r m buf n ident code nan = some reply) ∧
      Replies r ident (addrNode r m buf n) reply := by
  obtain ⟨c, hrun, _⟩ := copy_spec buf 12 n false m.name hn
  have hc := hrun 128 (Nat.le_refl _)
  by_cases hrc : c.rc = .ok
  · cases haddr : ptrAddr buf 4 0 12 0 with
    | none =>
        have hnode : addrNode r m buf n = none := by simp [addrNode, hc, haddr]
        refine ⟨_, fun fuel hf => by simp [processPtr, hrun fuel hf, haddr]; rfl, replies_none hnode ?_⟩
        simp
    | some p =>
    obtain ⟨addr, i⟩ := p
    by_cases harpa : load buf i 14 = inAddrArpa
    · cases hlook : lookupAddr r addr r.addrRbtree with
      | none =>
          have hnode : addrNode r m buf n = none := by simp [addrNode, hc, haddr, hlook]
          refine ⟨_, fun fuel hf => by simp [processPtr, hrun fuel hf, hrc, haddr, harpa, hlook]; rfl, replies_none hnode ?_⟩
          simp
      | some rn =>
          by_cases hq : (r.node rn).query = none
          · have hnode : addrNode r m buf n = none := by simp [addrNode, hc, haddr, hlook, withQuery, hq]
            refine ⟨_, fun fuel hf => by simp [processPtr, hrun fuel hf, hrc, haddr, harpa, hlook, hq]; rfl, replies_none hnode ?_⟩
            simp
          have hnode : addrNode r m buf n = some rn := by simp [addrNode, hc, hrc, haddr, harpa, hlook, withQuery, hq]
          rw [hnode]
          by_cases hident : ident = (r.node rn).ident
          · refine ⟨_, fun fuel hf => by
              simp [processPtr, hrun fuel hf, hrc, haddr, harpa, hlook, hq, hident, hcode]; rfl, ?_⟩
            exact replies_code hq hident code
          · refine ⟨_, fun fuel hf => by
              simp [processPtr, hrun fuel hf, hrc, haddr, harpa, hlook, hq, hident]; rfl, ?_⟩
            exact replies_wrong (by simp)
    · have hnode : addrNode r m buf n = none := by simp [addrNode, hc, haddr, harpa]
      refine ⟨_, fun fuel hf => by simp [processPtr, hrun fuel hf, haddr, harpa]; rfl, replies_none hnode ?_⟩
      simp
  · have hnode : addrNode r m buf n = none := by simp [addrNode, hc, hrc]
    refine ⟨_, fun fuel hf => by simp [processPtr, hrun fuel hf, hrc]; rfl, replies_none hnode ?_⟩
    simp

-- Only nodes that wait for a response are taken for nodes, and only those the response is for
-- get an answer.
def ErrorHandled (r : Resolver) (ident : Nat) (reply : Reply) : Prop :=
  (∀ e ∈ reply.treated, ∃ rn ∈ r.nameResendQueue ++ r.addrResendQueue, e = .node rn) ∧
    ∀ rn ctx state name addrs, .handler rn ctx state name addrs ∈ reply.calls →
      ctx ∈ (r.node rn).waiting ∧ (r.node rn).query ≠ none ∧ (r.node rn).ident = ident

-- A format error comes while its query waits in the name queue; for the other errors the node
-- of the question, if it has a query, waits in a queue.
def Awaited (r : Resolver) (m : Allocs) (buf : Memory) (n : Nat) : Prop :=
  12 ≤ n → flagsOf buf &&& 0x8000 ≠ 0 →
    (codeOf buf = 1 → Queued r (identOf buf)) ∧
    (codeOf buf ≠ 1 → codeOf buf ≤ 5 → ∀ rn, questionNode r m buf n = some rn →
      rn ∈ r.nameResendQueue ++ r.addrResendQueue)

theorem Replies.handled {found : Option Nat} {reply : Reply} (h : Replies r ident found reply) :
    ErrorHandled r ident reply ↔ ∀ rn, found = some rn → rn ∈ r.nameResendQueue ++ r.addrResendQueue := by
  constructor
  · rintro ⟨htreated, _⟩ rn hrn
    obtain ⟨rn', hmem, heq⟩ := htreated _ ((h.1 _).mpr ⟨rn, hrn, rfl⟩)
    cases heq
    exact hmem
  · intro hmem
    refine ⟨fun e he => ?_, h.2⟩
    obtain ⟨rn, hrn, heq⟩ := (h.1 e).mp he
    exact ⟨rn, hmem rn hrn, heq⟩

theorem skipQuestion_lt {turns i j : Nat} (h : skipQuestion buf n turns i = some j) : i ≤ j ∧ j < n := by
  induction turns generalizing i with
  | zero => cases h
  | succ turns ih =>
      rw [skipQuestion] at h
      by_cases hi : i < n
      · rw [if_pos hi] at h
        by_cases h0 : buf i = 0
        · rw [if_pos h0] at h
          cases h
          omega
        · rw [if_neg h0] at h
          have hj := ih h
          omega
      · rw [if_neg hi] at h
        cases h

-- A response that is an error, from its twelve octets on.
theorem processResponse_error (hn : 12 ≤ n) (hflag : flagsOf buf &&& 0x8000 ≠ 0) (hcode : codeOf buf ≠ 0)
    (h1 : codeOf buf ≠ 1) (h5 : codeOf buf ≤ 5) :
    ∃ reply, (∀ fuel, 128 ≤ fuel → processResponse fuel r m buf n = some reply) ∧
      Replies r (identOf buf) (questionNode r m buf n) reply := by
  have hlow : ¬ n < 12 := by omega
  have hhigh : ¬ 5 < codeOf buf := by omega
  by_cases hnqs : word buf 4 = 1
  · cases hskip : skipQuestion buf n (n - 12) 12 with
    | none =>
        have hnode : questionNode r m buf n = none := by simp [questionNode, hskip]
        refine ⟨_, fun fuel hf => by simp [processResponse, hlow, hflag, h1, hhigh, hnqs, hskip]; rfl, replies_none hnode ?_⟩
        simp
    | some i =>
    have hi := skipQuestion_lt hskip
    by_cases hshort : n < i + 1 + 4 + word buf 6 * (2 + 10)
    · have hnode : questionNode r m buf n = none := by simp [questionNode, hskip, hshort]
      refine ⟨_, fun fuel hf => by simp [processResponse, hlow, hflag, h1, hhigh, hnqs, hskip, hshort]; rfl, replies_none hnode ?_⟩
      simp
    by_cases hclass : word buf (i + 3) = 1
    · by_cases ha : word buf (i + 1) = 1
      · obtain ⟨scan, hrun, hreplies⟩ :=
          @processA_error r m buf n (identOf buf) (codeOf buf) (word buf 6) (i + 1 + 4) hcode (by omega)
        have hnode : questionNode r m buf n = nameNode r m buf n := by simp [questionNode, hnqs, hskip, hshort, hclass, ha]
        refine ⟨scan.reply, fun fuel hf => ?_, by rw [hnode]; exact hreplies⟩
        simp [processResponse, hlow, hflag, h1, hhigh, hnqs, hskip, hshort, hclass, ha, hrun fuel hf]
      by_cases hptr : word buf (i + 1) = 12
      · obtain ⟨reply, hrun, hreplies⟩ :=
          @processPtr_error r m buf n (identOf buf) (codeOf buf) (word buf 6) hcode (by omega)
        have hnode : questionNode r m buf n = addrNode r m buf n := by
          simp [questionNode, hnqs, hskip, hshort, hclass, hptr]
        refine ⟨reply, fun fuel hf => ?_, by rw [hnode]; exact hreplies⟩
        simp [processResponse, hlow, hflag, h1, hhigh, hnqs, hskip, hshort, hclass, hptr, hrun fuel hf]
      · have hnode : questionNode r m buf n = none := by simp [questionNode, hskip, ha, hptr]
        refine ⟨_, fun fuel hf => by
          simp [processResponse, hlow, hflag, h1, hhigh, hnqs, hskip, hshort, hclass, ha, hptr]; rfl, ?_⟩
        rw [hnode]
        exact replies_none rfl (by simp)
    · have hnode : questionNode r m buf n = none := by simp [questionNode, hskip, hclass]
      refine ⟨_, fun fuel hf => by
        simp [processResponse, hlow, hflag, h1, hhigh, hnqs, hskip, hshort, hclass]; rfl, ?_⟩
      rw [hnode]
      exact replies_none rfl (by simp)
  · have hnode : questionNode r m buf n = none := by simp [questionNode, hnqs]
    refine ⟨_, fun fuel hf => by simp [processResponse, hlow, hflag, h1, hhigh, hnqs]; rfl, replies_none hnode ?_⟩
    simp

-- A format error: the walk, and a message.
theorem processResponse_formerr (fuel : Nat) (r : Resolver) (m : Allocs) (hn : ¬ n < 12)
    (hflag : flagsOf buf &&& 0x8000 ≠ 0) (h1 : codeOf buf = 1) :
    ∃ text, processResponse fuel r m buf n = some ⟨(formerrLoop r (identOf buf) 100).1, [.log text]⟩ ∧
      ∀ fuel', processResponse fuel' r m buf n = processResponse fuel r m buf n := by
  cases hloop : formerrLoop r (identOf buf) 100 with
  | mk treated found =>
  cases found with
  | true =>
      exact ⟨_, by simp [processResponse, hn, hflag, h1, hloop]; rfl,
        fun fuel' => by simp [processResponse, hn, hflag, h1, hloop]⟩
  | false =>
      exact ⟨_, by simp [processResponse, hn, hflag, h1, hloop]; rfl,
        fun fuel' => by simp [processResponse, hn, hflag, h1, hloop]⟩

theorem silent_handled (text : Bytes) : ErrorHandled r ident ⟨[], [.log text]⟩ :=
  ⟨by simp, by simp⟩

theorem processResponse_errors (hcode : codeOf buf ≠ 0) :
    ∃ reply, (∀ fuel, 128 ≤ fuel → processResponse fuel r m buf n = some reply) ∧
      (ErrorHandled r (identOf buf) reply ↔ Awaited r m buf n) := by
  by_cases hn : n < 12
  · refine ⟨_, fun fuel _ => by simp [processResponse, hn]; rfl, fun _ h => ?_, fun _ => silent_handled _⟩
    omega
  by_cases hflag : flagsOf buf &&& 0x8000 = 0
  · exact ⟨_, fun fuel _ => by simp [processResponse, hn, hflag]; rfl, fun _ _ h => absurd hflag h, fun _ => silent_handled _⟩
  by_cases h1 : codeOf buf = 1
  · have hawaited : Awaited r m buf n ↔ Queued r (identOf buf) :=
      ⟨fun h => (h (Nat.le_of_not_lt hn) hflag).1 h1, fun h _ _ => ⟨fun _ => h, fun h' => absurd h1 h'⟩⟩
    have hsentinel := @formerrLoop_sentinel r (identOf buf) 100 (by decide)
    have htreated := @formerrLoop_treated r (identOf buf) 100
    obtain ⟨text, hrun, hfuel⟩ := processResponse_formerr 128 r m hn hflag h1
    refine ⟨_, fun fuel _ => (hfuel fuel).trans hrun, ?_⟩
    rw [hawaited]
    refine ⟨fun h => hsentinel.mp fun hmem => ?_, fun h => ⟨fun e he => ?_, by simp⟩⟩
    · obtain ⟨rn, _, heq⟩ := h.1 _ hmem
      exact Element.noConfusion heq
    · cases htreated e he with
      | inl heq => exact absurd (heq ▸ he) (hsentinel.mpr h)
      | inr hnode =>
          obtain ⟨rn, hrn, heq⟩ := hnode
          exact ⟨rn, List.mem_append_left _ hrn, heq⟩
  by_cases h5 : 5 < codeOf buf
  · refine ⟨_, fun fuel _ => by simp [processResponse, hn, hflag, h1, h5]; rfl, fun _ _ _ => ⟨fun h => absurd h h1, fun _ h => ?_⟩,
      fun _ => silent_handled _⟩
    omega
  · obtain ⟨reply, hrun, hreplies⟩ :=
      @processResponse_error r m buf n (Nat.le_of_not_lt hn) hflag hcode h1 (Nat.le_of_not_lt h5)
    refine ⟨reply, hrun, hreplies.handled.trans ⟨fun h _ _ => ⟨fun h' => absurd h' h1, fun _ _ => h⟩, fun h => ?_⟩⟩
    exact (h (Nat.le_of_not_lt hn) hflag).2 h1 (Nat.le_of_not_lt h5)

-- A resolver that has asked nothing.
def idle : Resolver where
  node := fun _ => ⟨0, [], none, []⟩
  nameRbtree := .nil
  addrRbtree := .nil
  nameResendQueue := []
  addrResendQueue := []
  queried := by simp
  sentinelIdent := 0
  time := 0
  valid := 300
  expire := 30

-- A format error with no query waiting.
def formatError : Memory := memoryOf [0, 7, 0x80, 1, 0, 0, 0, 0, 0, 0, 0, 0]

theorem processResponse_errors_idle :
    ∃ reply, (∀ fuel, 128 ≤ fuel → processResponse fuel idle ⟨true, true, true, true⟩ formatError 12 = some reply) ∧
      (ErrorHandled idle (identOf formatError) reply ↔ Awaited idle ⟨true, true, true, true⟩ formatError 12) :=
  processResponse_errors (by decide)

theorem formerr_meets_sentinel : ¬ ∀ r m buf n reply, codeOf buf ≠ 0 →
    processResponse 128 r m buf n = some reply → ErrorHandled r (identOf buf) reply := by
  intro h
  have hcode : codeOf formatError = 1 := by decide
  have hflag : flagsOf formatError &&& 0x8000 ≠ 0 := by decide
  obtain ⟨text, hrun, _⟩ := @processResponse_formerr formatError 12 128 idle ⟨true, true, true, true⟩
    (Nat.lt_irrefl 12) hflag hcode
  have hne : codeOf formatError ≠ 0 := by
    rw [hcode]
    decide
  obtain ⟨htreated, _⟩ := h idle ⟨true, true, true, true⟩ formatError 12 _ hne hrun
  dsimp only at htreated
  have hqueued : Queued idle (identOf formatError) := by
    refine (formerrLoop_sentinel 100 (by decide)).mp fun hmem => ?_
    obtain ⟨rn, hrn, _⟩ := htreated .nameSentinel hmem
    exact List.not_mem_nil hrn
  obtain ⟨rn, hrn, _⟩ := hqueued
  exact List.not_mem_nil hrn

end Nginx.Core.Resolver
