import Nginx.Http.ComplexValue.Emit
import Nginx.Http.Script.Compile

namespace Nginx.ComplexValue

open Script WordMemory

-- While the requests stay in R, every read of a variable gives its value and the captures stand.
structure Steady (conf : Conf) (value : Nat → Bytes) (captures : Captures) (flushes : List Nat)
    (R : Request → Prop) : Prop where
  read : ∀ r, R r → ∀ index ∈ flushes,
    bytes (getIndexedVariable conf r index).1 = value index ∧ R (getIndexedVariable conf r index).2
  captures : ∀ r, R r → r.captures = captures

-- The bytes that a code of a complex value stands for.
def text (value : Nat → Bytes) (captures : Captures) : Code → Bytes
  | .copy t => t
  | .copyVar index => value index
  | .startArgs => []
  | .copyCapture n => captures.text n

section Run

variable {conf : Conf} {value : Nat → Bytes} {captures : Captures} {flushes : List Nat}
  {R : Request → Prop}

-- The flags as ngx_http_complex_value sets them.
structure Calm (R : Request → Prop) (e : Engine) : Prop where
  flushed : e.flushed = true
  skip : e.skip = false
  quote : e.quote = false
  isArgs : e.isArgs = false
  request : R e.request

theorem Calm.escapes {e : Engine} (h : Calm R e) : e.escapes = false := by
  simp [Engine.escapes, h.quote, h.isArgs]

theorem loadWord_at {l pre post : Slots} {a : Nat} {w : Cell} (hl : l = pre ++ (word w ++ post))
    (ha : a = pre.length) : loadWord l a = some w := by
  rw [hl, ha]
  exact loadWord_append pre post w

theorem loadOperand_at {l pre post : Slots} {a : Nat} {w w' : Cell}
    (hl : l = pre ++ (word w ++ (word w' ++ post))) (ha : a = pre.length) :
    loadWord l (a + 8) = some w' := by
  have hsplit : l = (pre ++ word w) ++ (word w' ++ post) := by rw [hl, List.append_assoc]
  exact loadWord_at hsplit (by rw [ha, List.length_append, length_word])

theorem readVar_steady (hs : Steady conf value captures flushes R) {e : Engine} (hc : Calm R e)
    {index : Nat} (hi : index ∈ flushes) :
    ∃ r, readVar conf e index = (value index, { e with request := r }) ∧ R r := by
  obtain ⟨hvalue, hr⟩ := hs.read e.request hc.request index hi
  refine ⟨_, ?_, hr⟩
  simp only [readVar, hc.flushed, if_true, hvalue]

theorem lengthCode_spec (hs : Steady conf value captures flushes R) {e : Engine} (hc : Calm R e)
    (code : Code) (hcode : code ≠ .startArgs) (hf : ∀ i ∈ index? code, i ∈ flushes)
    (l pre post : Slots) (hl : l = pre ++ (lengthCells code ++ post)) (hip : e.ip = pre.length) :
    ∃ op r, loadWord l e.ip = some (.code op) ∧
      lengthCode conf l e op = some ((text value captures code).length,
        { e with ip := (pre ++ lengthCells code).length, request := r }) ∧ R r := by
  have hnext : ∀ w w' : Cell, (pre ++ (word w ++ word w')).length = e.ip + 16 := by
    intro w w'
    rw [List.length_append, List.length_append, length_word, length_word, hip]
  cases code with
  | copy t =>
      simp only [lengthCells, List.append_assoc] at hl
      refine ⟨.copyLen, e.request, loadWord_at hl hip, ?_, hc.request⟩
      simp only [lengthCode, loadOperand_at hl hip, lengthCells, hnext]
      rfl
  | copyVar index =>
      simp only [lengthCells, List.append_assoc] at hl
      obtain ⟨r, hread, hr⟩ := readVar_steady hs (e := { e with ip := e.ip + 16 })
        ⟨hc.flushed, hc.skip, hc.quote, hc.isArgs, hc.request⟩ (hf index rfl)
      refine ⟨.copyVarLen, r, loadWord_at hl hip, ?_, hr⟩
      simp only [lengthCode, loadOperand_at hl hip, hread, lengthCells, hnext]
      rfl
  | startArgs => exact absurd rfl hcode
  | copyCapture n =>
      simp only [lengthCells, List.append_assoc] at hl
      refine ⟨.copyCaptureLen, e.request, loadWord_at hl hip, ?_, hc.request⟩
      have hlen : e.request.captures.len (2 * n / 2) = (captures.text n).length := by
        rw [hs.captures _ hc.request, Nat.mul_div_cancel_left n (by decide), Captures.text_length]
      simp only [lengthCode, loadOperand_at hl hip, hc.escapes, Bool.false_eq_true, if_false, hlen,
        lengthCells, hnext]
      rfl

theorem runLengths_spec (hs : Steady conf value captures flushes R) (codes : List Code)
    (hcodes : .startArgs ∉ codes) (hf : ∀ i ∈ codes.filterMap index?, i ∈ flushes) (l pre post : Slots)
    (hl : l = pre ++ (codes.flatMap lengthCells ++ (word .null ++ post))) (fuel : Nat)
    (hfuel : codes.length < fuel) (e : Engine) (hc : Calm R e) (hip : e.ip = pre.length) :
    ∃ ip r, runLengths conf l fuel e =
      some ((codes.flatMap (text value captures)).length, { e with ip, request := r }) ∧ R r := by
  induction codes generalizing pre fuel e with
  | nil =>
      obtain ⟨fuel, rfl⟩ : ∃ f, fuel = f + 1 := ⟨fuel - 1, by omega⟩
      refine ⟨e.ip, e.request, ?_, hc.request⟩
      simp only [runLengths, loadWord_at hl hip]
      rfl
  | cons code codes ih =>
      obtain ⟨fuel, rfl⟩ : ∃ f, fuel = f + 1 := ⟨fuel - 1, by omega⟩
      rw [List.flatMap_cons, List.append_assoc] at hl
      obtain ⟨op, r, hop, hstep, hr⟩ := lengthCode_spec hs hc code
        (fun h => hcodes (h ▸ List.mem_cons_self))
        (fun i hi => hf i (List.mem_filterMap.mpr ⟨code, List.mem_cons_self, hi⟩)) l pre _ hl hip
      obtain ⟨ip, r', hrun, hr'⟩ := ih (fun h => hcodes (List.mem_cons_of_mem _ h))
        (fun i hi => hf i (by
          obtain ⟨c, hmem, hc⟩ := List.mem_filterMap.mp hi
          exact List.mem_filterMap.mpr ⟨c, List.mem_cons_of_mem _ hmem, hc⟩))
        (pre ++ lengthCells code) (by rw [List.append_assoc]; exact hl) fuel
        (by rw [List.length_cons] at hfuel; omega)
        { e with ip := (pre ++ lengthCells code).length, request := r }
        ⟨hc.flushed, hc.skip, hc.quote, hc.isArgs, hr⟩ rfl
      refine ⟨ip, r', ?_, hr'⟩
      simp only [runLengths, hop, hstep, hrun, Option.bind_eq_bind, Option.bind_some, List.flatMap_cons]
      rw [List.length_append]
      rfl

theorem valueCode_spec (hs : Steady conf value captures flushes R) {e : Engine} (hc : Calm R e)
    (code : Code) (hcode : code ≠ .startArgs) (hf : ∀ i ∈ index? code, i ∈ flushes)
    (l pre cells post : Slots) (hcells : ValueCells code cells) (hl : l = pre ++ (cells ++ post))
    (hip : e.ip = pre.length) :
    ∃ op r, loadWord l e.ip = some (.code op) ∧
      valueCode conf l e op = some { e with
        ip := (pre ++ cells).length, buf := e.buf ++ text value captures code, request := r } ∧ R r := by
  have hnext : ∀ w w' : Cell, (pre ++ (word w ++ word w')).length = e.ip + 16 := by
    intro w w'
    rw [List.length_append, List.length_append, length_word, length_word, hip]
  cases code with
  | copy t =>
      obtain ⟨pad, hpad, rfl⟩ := hcells
      simp only [List.append_assoc] at hl
      have hload : loadBytes l (e.ip + 16) t.length = some t := by
        have hl' : l = (pre ++ (word (.code .copy) ++ word (.operand t.length))) ++
            (t.map .byte ++ (pad ++ post)) := by
          simp only [hl, List.append_assoc]
        rw [hl', ← hnext (.code .copy) (.operand t.length)]
        exact loadBytes_append _ _ t
      have hip' : (pre ++ (word (Cell.code .copy) ++ (word (Cell.operand t.length) ++
          (t.map Slot.byte ++ pad)))).length = e.ip + 16 + Hash.align t.length 8 := by
        simp only [List.length_append, length_word, List.length_map]
        omega
      refine ⟨.copy, e.request, loadWord_at hl hip, ?_, hc.request⟩
      simp only [valueCode, loadOperand_at hl hip, hc.skip, Bool.false_eq_true, if_false, hload, hip',
        Option.map_some, Option.bind_eq_bind, Option.bind_some]
      rfl
  | copyVar index =>
      obtain rfl : cells = word (Cell.code .copyVar) ++ word (Cell.operand index) := hcells
      simp only [List.append_assoc] at hl
      obtain ⟨r, hread, hr⟩ := readVar_steady hs (e := { e with ip := e.ip + 16 })
        ⟨hc.flushed, hc.skip, hc.quote, hc.isArgs, hc.request⟩ (hf index rfl)
      simp only [hc.skip] at hread
      refine ⟨.copyVar, r, loadWord_at hl hip, ?_, hr⟩
      simp only [valueCode, loadOperand_at hl hip, hc.skip, Bool.false_eq_true, if_false, hread, hnext]
      rfl
  | startArgs => exact absurd rfl hcode
  | copyCapture n =>
      obtain rfl : cells = word (Cell.code .copyCapture) ++ word (Cell.operand (2 * n)) := hcells
      simp only [List.append_assoc] at hl
      have htext : e.request.captures.text (2 * n / 2) = captures.text n := by
        rw [hs.captures _ hc.request, Nat.mul_div_cancel_left n (by decide)]
      refine ⟨.copyCapture, e.request, loadWord_at hl hip, ?_, hc.request⟩
      simp only [valueCode, loadOperand_at hl hip, hc.escapes, Bool.false_eq_true, if_false, htext, hnext]
      rfl

theorem runValues_spec (hs : Steady conf value captures flushes R) (codes : List Code)
    (hcodes : .startArgs ∉ codes) (hf : ∀ i ∈ codes.filterMap index?, i ∈ flushes)
    (l pre cells post : Slots) (hcells : Program codes cells)
    (hl : l = pre ++ (cells ++ (word .null ++ post))) (fuel : Nat) (hfuel : codes.length < fuel)
    (e : Engine) (hc : Calm R e) (hip : e.ip = pre.length) :
    ∃ ip r, runValues conf l fuel e = some { e with
      ip, buf := e.buf ++ codes.flatMap (text value captures), request := r } ∧ R r := by
  induction hcells generalizing pre fuel e with
  | nil =>
      obtain ⟨fuel, rfl⟩ : ∃ f, fuel = f + 1 := ⟨fuel - 1, by omega⟩
      refine ⟨e.ip, e.request, ?_, hc.request⟩
      simp only [runValues, loadWord_at hl hip, List.flatMap_nil, List.append_nil]
  | @cons code codes first cells hcode hrest ih =>
      obtain ⟨fuel, rfl⟩ : ∃ f, fuel = f + 1 := ⟨fuel - 1, by omega⟩
      rw [List.append_assoc] at hl
      obtain ⟨op, r, hop, hstep, hr⟩ := valueCode_spec hs hc code
        (fun h => hcodes (h ▸ List.mem_cons_self))
        (fun i hi => hf i (List.mem_filterMap.mpr ⟨code, List.mem_cons_self, hi⟩)) l pre first _ hcode hl hip
      obtain ⟨ip, r', hrun, hr'⟩ := ih (fun h => hcodes (List.mem_cons_of_mem _ h))
        (fun i hi => hf i (by
          obtain ⟨c, hmem, hc⟩ := List.mem_filterMap.mp hi
          exact List.mem_filterMap.mpr ⟨c, List.mem_cons_of_mem _ hmem, hc⟩))
        (pre ++ first) (by rw [List.append_assoc]; exact hl) fuel
        (by rw [List.length_cons] at hfuel; omega)
        { e with ip := (pre ++ first).length, buf := e.buf ++ text value captures code, request := r }
        ⟨hc.flushed, hc.skip, hc.quote, hc.isArgs, hr⟩ rfl
      refine ⟨ip, r', ?_, hr'⟩
      simp only [runValues, hop, hstep, hrun, Option.bind_eq_bind, Option.bind_some, List.flatMap_cons,
        List.append_assoc]

end Run

end Nginx.ComplexValue
