import Toolchain.Proofs.Bytecode.Stored

/-!
# The verifier, one look-up at a time

The verifier as a program that looks up what stands at a position: the octets of an instruction, a
constant, the depth noted so far. A look-up where nothing stands stops the program, which is not an
error that the verifier reports, and so does a walk that is still at work when its rounds are over.
The verifier never stops in either way, whatever the code object: each index was compared with a
length first, except for the constant of the instruction before one that makes a function or a
class, and that instruction was checked before.

## Main definitions

* `Stop`: why a program stops that looks things up by position
* `entry`, `slice`: look-ups
* `Code.verifyByPosition`: the verifier as such a program

## Main results

* `Code.checkWordAt_eq`: a word is checked without a stop once the word before it has passed
* `Depths.walkAt_eq`: the walk needs no more rounds than it has
* `Code.verifyByPosition_eq`: **the verifier looks nothing up where nothing stands**
-/

namespace Toolchain

/-- Why a program stops that looks things up by position. -/
inductive Stop (ε : Type) where
  /-- It says what is wrong. -/
  | fault (cause : ε)
  /-- It has looked something up where nothing stands. -/
  | outside
  /-- It is still at work when its rounds are over. -/
  | unfinished

namespace Stop

variable {ε ε' α β : Type}

/-- A stop for which the cause is given in another way. -/
def map (f : ε → ε') : Stop ε → Stop ε'
  | fault cause => fault (f cause)
  | outside => outside
  | unfinished => unfinished

/-- An outcome that is no stop but for its own error. -/
def lift (x : Except ε α) : Except (Stop ε) α := x.mapError fault

@[simp] theorem lift_ok (a : α) : lift (.ok a : Except ε α) = .ok a := rfl

@[simp] theorem lift_error (e : ε) : lift (.error e : Except ε α) = .error (.fault e) := rfl

@[simp] theorem lift_pure (a : α) : lift (pure a : Except ε α) = pure a := rfl

@[simp] theorem lift_throw (e : ε) : lift (throw e : Except ε α) = throw (.fault e) := rfl

theorem lift_bind (x : Except ε α) (f : α → Except ε β) :
    lift (x >>= f) = lift x >>= fun a => lift (f a) := by
  cases x with
  | error e => rfl
  | ok a => rfl

/-- A step after a value. -/
theorem ok_bind (a : α) (f : α → Except ε β) : ((.ok a : Except ε α) >>= f) = f a := rfl

theorem lift_mapError (f : ε → ε') (x : Except ε α) :
    (lift x).mapError (map f) = lift (x.mapError f) := by
  cases x with
  | error e => rfl
  | ok a => rfl

end Stop

section Lookups

variable {ε α : Type}

/-- What stands at a position. -/
def entry (xs : List α) (p : Nat) : Except (Stop ε) α :=
  match xs[p]? with
  | some a => .ok a
  | none => .error .outside

/-- The octets from one position up to another. -/
def slice (octets : List UInt8) (start stop : Nat) : Except (Stop ε) (List UInt8) :=
  if start ≤ stop ∧ stop ≤ octets.length then .ok ((octets.take stop).drop start)
  else .error .outside

theorem entry_of_eq_some {xs : List α} {p : Nat} {a : α} (h : xs[p]? = some a) :
    entry xs p = (.ok a : Except (Stop ε) α) := by
  rw [entry, h]

end Lookups

namespace Word

theorem getElem?_ofByteList (bytes : List UInt8) (p : Nat) :
    (ofByteList bytes)[p]? =
      bytes[2 * p]?.bind fun high => bytes[2 * p + 1]?.map (ofBytes high) := by
  -- the words take the octets two by two, as the positions do
  induction p generalizing bytes with
  | zero =>
    rcases bytes with _ | ⟨high, _ | ⟨low, rest⟩⟩ <;> rfl
  | succ p ih =>
    rcases bytes with _ | ⟨high, _ | ⟨low, rest⟩⟩
    · rfl
    · rfl
    · rw [ofByteList, List.getElem?_cons_succ, ih]
      rfl

end Word

namespace Code

/-! ## The program -/

/-- An error of a code object at a position. -/
def faultAt (c : Code) (p : Nat) (cause : VerifyCause) : Stop VerifyError :=
  .fault ⟨c.name, p, cause⟩

/-- The word at a position. -/
def wordAt (c : Code) (p : Nat) : Except (Stop VerifyError) Word := do
  let high ← entry c.instructions (2 * p)
  let low ← entry c.instructions (2 * p + 1)
  return .ofBytes high low

/-- Checks what the operand of the instruction at a position refers to. -/
def checkReferenceAt (c : Code) (p : Nat) (i : Instr) : Except (Stop VerifyError) Unit :=
  if i.op.isJump then
    if i.operand ≥ c.size then throw (c.faultAt p (.target i.op i.operand)) else pure ()
  else if i.op = .loadConst then
    if i.operand ≥ c.constants.length then throw (c.faultAt p (.constantIndex i.operand))
    else pure ()
  else if i.op.usesName then do
    if i.operand ≥ c.constants.length then throw (c.faultAt p (.nameIndex i.operand))
    let k ← entry c.constants i.operand
    if k.isName then pure () else throw (c.faultAt p (.notAName i.op i.operand))
  else pure ()

/-- Checks the range of the operand, and what has to stand before the instruction. The constant of
the instruction before it is looked up without a question. -/
def checkOperandAt (c : Code) (p : Nat) (i : Instr) : Except (Stop VerifyError) Unit :=
  if i.op = .makeFunction ∨ i.op = .makeClass then
    if p = 0 then throw (c.faultAt p (.noCodeObject i.op))
    else do
      match Instr.decode? (← c.wordAt (p - 1)) with
      | some ⟨.loadConst, index⟩ =>
        let k ← entry c.constants index
        if k.isCode then pure () else throw (c.faultAt p (.notAfterCode i.op))
      | _ => throw (c.faultAt p (.notAfterCode i.op))
  else Stop.lift ((c.view.checkOperand p i).mapError (⟨c.name, p, ·⟩))

/-- Checks the encoding of the instruction at a position. -/
def checkWordAt (c : Code) (p : Nat) : Except (Stop VerifyError) Unit := do
  let w ← c.wordAt p
  if w = Word.placeholder then throw (c.faultAt p (.unpatched p c.name))
  match Instr.decode? w with
  | none => throw (c.faultAt p (.invalidOpcode w.opNumber))
  | some i =>
    c.checkReferenceAt p i
    c.checkOperandAt p i

/-- Notes that a path leads from one position to another with a depth. -/
def flowAt (c : Code) (d : Depths) (source target depth : Nat) :
    Except (Stop VerifyError) Depths := do
  if target ≥ c.size then throw (c.faultAt source .fallsOff)
  match ← entry d.depth.toList target with
  | none =>
    return { d with depth := d.depth.setIfInBounds target (some depth), work := target :: d.work }
  | some before =>
    if before = depth then return d else throw (c.faultAt target (.inconsistent before depth))

/-- Visits the instruction at a position, which has to have a depth. -/
def visitAt (c : Code) (d : Depths) (p : Nat) : Except (Stop VerifyError) Depths := do
  let some depth ← entry d.depth.toList p | throw .outside
  let some i := Instr.decode? (← c.wordAt p) | throw .outside
  if depth < i.stackNeed then throw (c.faultAt p (.underflow i.op i.stackNeed depth))
  let d := { d with deepest := max d.deepest (i.stackAfter depth) }
  (i.flows p depth).foldlM (fun d (target, after) => c.flowAt d p target after) d

/-- Visits positions until none is left; there have to be enough rounds. -/
def walkAt (c : Code) : (rounds : Nat) → Depths → Except (Stop VerifyError) Depths
  | 0, d => if d.work.isEmpty then pure d else throw .unfinished
  | rounds + 1, d =>
    match d.work with
    | [] => pure d
    | p :: work => do walkAt c rounds (← c.visitAt { d with work } p)

/-- Checks a code object without those nested in it; gives the largest depth of its stack. -/
def checkAloneByPosition (c : Code) : Except (Stop VerifyError) Nat := do
  if c.instructions.length % 2 ≠ 0 then throw (c.faultAt 0 (.oddLength c.instructions.length))
  if c.lines.length ≠ c.size then throw (c.faultAt 0 (.lineTable c.lines.length c.size))
  (List.range c.size).forM c.checkWordAt
  Stop.lift ((CodeView.checkConstants 0 c.constants).mapError (⟨c.name, 0, ·⟩))
  if c.size = 0 then return 0
  return (← c.walkAt (c.size + 1) (Depths.start c.size)).deepest

/-- Checks a code object and all those nested in it. -/
def verifyByPosition (c : Code) : Except (Stop VerifyError) Unit :=
  c.nested.forM fun inner => do
    let _ ← inner.checkAloneByPosition

/-! ## The encoding -/

variable {c : Code} {p : Nat}

theorem wordAt_of_eq_some {w : Word} (h : c.words[p]? = some w) : c.wordAt p = .ok w := by
  rw [CodeObject.words, Word.getElem?_ofByteList] at h
  obtain ⟨high, hhigh, h⟩ := Option.bind_eq_some_iff.mp h
  obtain ⟨low, hlow, rfl⟩ := Option.map_eq_some_iff.mp h
  rw [wordAt, entry_of_eq_some hhigh, entry_of_eq_some hlow]
  rfl

theorem checkReferenceAt_eq (i : Instr) :
    c.checkReferenceAt p i =
      Stop.lift ((c.view.checkReference i).mapError (⟨c.name, p, ·⟩)) := by
  have hsize : c.view.words.size = c.size := size_view_words c
  unfold checkReferenceAt CodeView.checkReference
  rw [hsize]
  by_cases hjump : i.op.isJump = true
  · rw [if_pos hjump, if_pos hjump]
    split <;> rfl
  rw [if_neg hjump, if_neg hjump]
  by_cases hload : i.op = .loadConst
  · rw [if_pos hload, if_pos hload]
    simp only [view, List.size_toArray]
    split <;> rfl
  rw [if_neg hload, if_neg hload]
  by_cases hname : i.op.usesName = true
  · rw [if_pos hname, if_pos hname]
    -- the index is looked up after it was compared with the number of constants
    by_cases hindex : i.operand < c.constants.length
    · have hk := List.getElem?_eq_getElem hindex
      rw [if_neg (Nat.not_le_of_lt hindex), entry_of_eq_some hk]
      simp only [view, List.getElem?_toArray, hk]
      change (if _ then _ else _) = _
      split <;> rfl
    · have hnone : c.constants[i.operand]? = none :=
        List.getElem?_eq_none (Nat.le_of_not_lt hindex)
      rw [if_pos (Nat.le_of_not_lt hindex)]
      simp only [view, List.getElem?_toArray, hnone]
      rfl
  · rw [if_neg hname, if_neg hname]
    rfl

/-- The word before a position has passed its check. -/
def PassedBefore (c : Code) (p : Nat) : Prop :=
  ∀ q w i, q + 1 = p → c.words[q]? = some w → Instr.decode? w = some i → c.view.Encoded q i

theorem checkOperandAt_eq (i : Instr) (hp : p ≤ c.words.length) (hbefore : c.PassedBefore p) :
    c.checkOperandAt p i = Stop.lift ((c.view.checkOperand p i).mapError (⟨c.name, p, ·⟩)) := by
  unfold checkOperandAt
  by_cases hmake : i.op = .makeFunction ∨ i.op = .makeClass
  · rw [if_pos hmake]
    have hchecked : c.view.checkOperand p i =
        if p = 0 then throw (.noCodeObject i.op)
        else if c.view.loadsCode (p - 1) then pure () else throw (.notAfterCode i.op) := by
      unfold CodeView.checkOperand
      rcases hmake with h | h <;> rw [h]
    rw [hchecked]
    cases p with
    | zero => rfl
    | succ q =>
      rw [if_neg (Nat.succ_ne_zero q), if_neg (Nat.succ_ne_zero q), Nat.add_sub_cancel]
      have hq := List.getElem?_eq_getElem (Nat.lt_of_succ_le hp)
      rw [wordAt_of_eq_some hq]
      have hinstr : c.view.instr? q = Instr.decode? c.words[q] := by
        simp [CodeView.instr?, view, hq]
      rw [CodeView.loadsCode, hinstr]
      rw [Stop.ok_bind]
      rcases hdecode : Instr.decode? c.words[q] with _ | ⟨op, index⟩
      · rfl
      · cases op with
        | loadConst =>
          -- the word before has passed, so its constant is there
          have hindex := (hbefore q _ _ rfl hq hdecode).constant rfl
          have hlt : index < c.constants.length := by simpa [view] using hindex
          have hk := List.getElem?_eq_getElem hlt
          dsimp only
          rw [entry_of_eq_some hk]
          simp only [view, List.getElem?_toArray, hk, Option.any_some]
          change (if _ then _ else _) = _
          split <;> rfl
        | _ => rfl
  · rw [if_neg hmake]

/-- A word is checked without a stop once the word before it has passed. -/
theorem checkWordAt_eq {w : Word} (hw : c.words[p]? = some w) (hbefore : c.PassedBefore p) :
    c.checkWordAt p = Stop.lift ((c.view.checkWord c.name p w).mapError (⟨c.name, p, ·⟩)) := by
  have hp : p ≤ c.words.length := Nat.le_of_lt (List.getElem?_eq_some_iff.mp hw).1
  unfold checkWordAt CodeView.checkWord
  rw [wordAt_of_eq_some hw, Stop.ok_bind]
  by_cases hplaceholder : w = Word.placeholder
  · rw [if_pos hplaceholder, if_pos hplaceholder]
    rfl
  rw [if_neg hplaceholder, if_neg hplaceholder]
  change (match Instr.decode? w with
    | none => throw _
    | some i => _) = _
  cases Instr.decode? w with
  | none => rfl
  | some i =>
    dsimp only
    rw [checkReferenceAt_eq, checkOperandAt_eq i hp hbefore]
    cases c.view.checkReference i with
    | error e => rfl
    | ok u => rfl

/-- The words from a position on are checked without a stop once those before have passed. -/
theorem forM_checkWordAt_eq (before rest : List Word) (hwords : c.words = before ++ rest)
    (hpassed : c.PassedBefore before.length) :
    (List.range' before.length rest.length).forM c.checkWordAt =
      Stop.lift (c.view.checkWords c.name before.length rest) := by
  induction rest generalizing before with
  | nil => rfl
  | cons w rest ih =>
    have hw : c.words[before.length]? = some w := by simp [hwords]
    have hnext : (before ++ [w]).length = before.length + 1 := by simp
    rw [List.length_cons, List.range'_succ]
    change (c.checkWordAt before.length >>= fun _ =>
      (List.range' (before.length + 1) rest.length).forM c.checkWordAt) = _
    rw [checkWordAt_eq hw hpassed, CodeView.checkWords]
    rcases hcheck : c.view.checkWord c.name before.length w with e | u
    · rfl
    · -- the word has passed, so the next one finds what it may look up
      have hpassed' : c.PassedBefore (before ++ [w]).length := by
        intro q w' i hq hw' hi
        rw [hnext] at hq
        obtain rfl := Nat.add_right_cancel hq
        obtain rfl := Option.some.inj (hw.symm.trans hw')
        obtain ⟨j, hj, henc⟩ := (CodeView.checkWord_eq_ok_iff c.name before.length w).mp hcheck
        obtain rfl := Option.some.inj (hj.symm.trans hi)
        exact henc
      have hrest := ih (before ++ [w]) (by simp [hwords]) hpassed'
      rw [hnext] at hrest
      exact hrest

end Code

/-! ## The walk -/

namespace Depths

open Code

variable {c : Code} {d : Depths}

theorem flowAt_eq (hsize : d.depth.size = c.size) (source target depth : Nat) :
    c.flowAt d source target depth = Stop.lift (flow c.name d source target depth) := by
  unfold flowAt flow
  by_cases htarget : target < c.size
  · have hlt : target < d.depth.toList.length := by
      rw [Array.length_toList, hsize]
      exact htarget
    have hget := List.getElem?_eq_getElem hlt
    have harray : d.depth[target]? = some d.depth.toList[target] := by
      rw [← Array.getElem?_toList, hget]
    rw [if_neg (Nat.not_le_of_lt htarget), entry_of_eq_some hget, harray]
    simp only [Stop.ok_bind]
    cases d.depth.toList[target] with
    | none => rfl
    | some before =>
      dsimp only
      split <;> rfl
  · have hnone : d.depth[target]? = none := by
      rw [Array.getElem?_eq_none_iff, hsize]
      exact Nat.le_of_not_lt htarget
    rw [if_pos (Nat.le_of_not_lt htarget), hnone]
    rfl

theorem size_of_flow {d' : Depths} {name : Text} {source target depth : Nat}
    (h : flow name d source target depth = .ok d') : d'.depth.size = d.depth.size := by
  rcases flow_cases name d source target depth with ⟨d'', h', n⟩ | ⟨e, h', -⟩
  · obtain rfl := Except.ok.inj (h.symm.trans h')
    exact n.size
  · cases h.symm.trans h'

theorem flowsAt_eq (hsize : d.depth.size = c.size) (source : Nat) (paths : List (Nat × Nat)) :
    paths.foldlM (fun d (target, after) => c.flowAt d source target after) d =
      Stop.lift (paths.foldlM (fun d (target, after) => flow c.name d source target after) d) := by
  induction paths generalizing d with
  | nil => rfl
  | cons path paths ih =>
    rw [List.foldlM_cons, List.foldlM_cons, Stop.lift_bind]
    dsimp only
    rw [flowAt_eq hsize]
    rcases hflow : flow c.name d source path.1 path.2 with e | d'
    · rfl
    · exact ih ((size_of_flow hflow).trans hsize)

/-- The walk needs no more rounds than it has: it visits each position once. -/
theorem walkAt_eq (hd : d.Sound c.view) (hwell : c.WellEncoded) {rounds : Nat}
    (hrounds : d.toVisit ≤ rounds) :
    c.walkAt rounds d = Stop.lift (walk c.name c.view rounds d) := by
  have instrs : ∀ p, p < c.view.words.size → ∃ i, c.view.instr? p = some i := by
    intro p hp
    rw [size_view_words] at hp
    obtain ⟨i, hi, -⟩ := hwell.exists_instr hp
    exact ⟨i, hi⟩
  have hsize : d.depth.size = c.size := hd.size.trans (size_view_words c)
  induction rounds generalizing d with
  | zero =>
    have hwork : d.work = [] := List.eq_nil_of_length_eq_zero (by unfold toVisit at hrounds; omega)
    rw [walkAt, hwork]
    rfl
  | succ rounds ih =>
    rw [walkAt, walk]
    rcases hwork : d.work with _ | ⟨p, work⟩
    · rfl
    · have hp : p ∈ d.work := by simp [hwork]
      have herase : d.work.erase p = work := by simp [hwork]
      -- the position waits, so it has a depth and an instruction
      obtain ⟨x, hx⟩ := hd.waiting p hp
      obtain ⟨hlt, hget⟩ := Array.getElem?_eq_some_iff.mp hx
      obtain ⟨i, hi⟩ := instrs p (hd.size ▸ hlt)
      obtain ⟨w, hw, hdecode⟩ := Option.bind_eq_some_iff.mp hi
      have hword : c.words[p]? = some w := by simpa [view] using hw
      have hentry : d.depth.toList[p]? = some (some x) := by
        rw [Array.getElem?_toList]
        exact hx
      have hvisit : c.visitAt { d with work } p =
          Stop.lift (visit c.name c.view { d with work } p) := by
        have hjoin : d.depth[p]?.join = some x := by rw [hx]; rfl
        unfold visitAt visit
        rw [entry_of_eq_some hentry, wordAt_of_eq_some hword]
        simp only [hi, hjoin, Stop.ok_bind, hdecode]
        by_cases hneed : x < i.stackNeed
        · rw [if_pos hneed, if_pos hneed]
          rfl
        · rw [if_neg hneed, if_neg hneed]
          refine flowsAt_eq ?_ p (i.flows p x)
          exact hsize
      dsimp only
      rw [hvisit, Stop.lift_bind]
      rcases hd.visit_cases c.name instrs hp with ⟨d', h, hd', hlt⟩ | ⟨e, h, -⟩
      · rw [herase] at h
        rw [h]
        exact ih hd' (by omega) (hd'.size.trans (size_view_words c))
      · rw [herase] at h
        rw [h]
        rfl

theorem toVisit_start (size : Nat) : (start size).toVisit ≤ size + 1 := by
  have hcount := List.count_le_length (l := ((Array.replicate size none).setIfInBounds 0
    (some 0)).toList) (a := (none : Option Nat))
  rw [Array.length_toList, Array.size_setIfInBounds, Array.size_replicate] at hcount
  simp only [toVisit, start, List.length_singleton]
  omega

end Depths

/-! ## Code objects -/

namespace Code

theorem checkAloneByPosition_eq (c : Code) :
    c.checkAloneByPosition = Stop.lift c.checkAlone := by
  unfold checkAloneByPosition checkAlone
  by_cases heven : c.instructions.length % 2 ≠ 0
  · rw [if_pos heven, if_pos heven]
    rfl
  by_cases hlines : c.lines.length ≠ c.size
  · rw [if_neg heven, if_neg heven, if_pos hlines, if_pos hlines]
    rfl
  rw [if_neg heven, if_neg heven, if_neg hlines, if_neg hlines]
  have hlength : c.words.length = c.size := Word.length_ofByteList c.instructions
  have hwords := forM_checkWordAt_eq [] c.words rfl (by intro q w i hq; cases hq)
  rw [List.length_nil, hlength, ← List.range_eq_range'] at hwords
  rw [hwords, Stop.lift_bind]
  rcases hcheck : c.view.checkWords c.name 0 c.words with e | u
  · rfl
  rcases hconstants : CodeView.checkConstants 0 c.constants with e | u
  · rfl
  unfold checkStack
  by_cases hsize : c.size = 0
  · rw [if_pos hsize, if_pos hsize]
    rfl
  · -- all checks but the last have passed, so the code object is well encoded
    have hwell : c.WellEncoded := by
      rw [CodeView.checkWords_eq_ok_iff] at hcheck
      rw [CodeView.checkConstants_eq_ok_iff] at hconstants
      simp only [Nat.zero_add] at hcheck
      exact ⟨not_not.mp heven, not_not.mp hlines, hcheck, hconstants⟩
    rw [if_neg hsize, if_neg hsize, Depths.walkAt_eq (sound_start (Nat.pos_of_ne_zero hsize)) hwell
      (Depths.toVisit_start c.size)]
    change (Stop.lift (Depths.walk c.name c.view (c.size + 1) (Depths.start c.size)) >>=
      fun d => pure d.deepest) = Stop.lift
        (Depths.walk c.name c.view (c.size + 1) (Depths.start c.size) >>= fun d => pure d.deepest)
    rw [Stop.lift_bind]
    rfl

/-- **The verifier looks nothing up where nothing stands.** Whatever the code object, the verifier
that stops at such a look-up, and when its rounds are over, gives the same answer. -/
theorem verifyByPosition_eq (c : Code) : c.verifyByPosition = Stop.lift c.verify := by
  unfold verifyByPosition verify
  induction c.nested with
  | nil => rfl
  | cons o os ih =>
    change ((o.checkAloneByPosition >>= fun _ => pure ()) >>= fun _ => os.forM _) =
      Stop.lift ((o.checkAlone >>= fun _ => pure ()) >>= fun _ => os.forM _)
    rw [checkAloneByPosition_eq]
    cases o.checkAlone with
    | error e => rfl
    | ok u => exact ih

end Code

end Toolchain
