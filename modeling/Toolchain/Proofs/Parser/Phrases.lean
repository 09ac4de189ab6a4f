import Toolchain.Proofs.Parser.Folding

/-!
# What the rules for expressions read

Which tokens an expression is read from, one rule of the grammar after the other. A rule is given a
depth, and every bracket, lambda and operator in front of an operand takes some of it. So each of
the statements below says how much depth some tokens need: with as much the rule reads them as an
expression, and with less it ends in the fault that the expression is nested too deeply.

The head of an operand, on which attributes, calls and subscripts follow, and the left side of
operators are read in loops that go on with whatever comes next. Statements about them are about
what they read before the loop goes on.

## Main definitions

* `Parse.IsTooDeep`: the fault of an expression that is nested too deeply
* `Parse.Item`: the tokens of an expression, their value and the depth they need
* `Parse.AsHead`, `Parse.AsOperand`, `Parse.AsChain`, `Parse.AsExpression`, `Parse.AsEnclosed`: in
  which places of the grammar some tokens are an expression
* `Parse.ParameterItem`: one of the parameters of a function

## Main results

* `Parse.loops_commas`: a loop over things with commas between them
* `Parse.reads_elements`, `Parse.reads_argument`, `Parse.reads_slice`, `Parse.reads_parameters`:
  what stands in brackets, and the parameters of a function
* `Parse.AsHead.operand`, `Parse.AsOperand.chain`, `Parse.AsChain.expression`,
  `Parse.AsExpression.enclosed`: a place of the grammar is as good as a narrower one
-/

namespace Toolchain

namespace Parse

variable {bad : Fault → Prop} {F G : Prop} {fs gs rest : List Face} {e e' : Expr Unit} {n m d : Nat}

/-- The fault of an expression that is nested too deeply. -/
def IsTooDeep (f : Fault) : Prop := ∃ token, f = Fault.placed .unexpectedToken token .nestingTooDeep

/-- A rule reads some faces as an expression if `fits`; otherwise the expression is nested too
deeply. -/
abbrev ReadsAs (p : Parse MarkedExpr) (fits : Prop) (fs rest : List Face) (e : Expr Unit) : Prop :=
  Reads IsTooDeep p fits fs rest fun r => r.erase = e

theorem reads_tooDeep {β : Type} {Q : β → Prop} (h : ¬F) : Reads IsTooDeep tooDeep F fs rest Q := by
  apply reads_fault _ h
  intro s
  exact ⟨_, rfl, s.next, rfl⟩

/-- An expression ends in front of these. -/
def Stops (x : Face) : Prop := Closes x ∧ beginsInfix x.1 = false

theorem front_eq (h : startsExpr (front fs).1 = true) (gs : List Face) :
    front (fs ++ gs) = front fs := by
  apply front_append
  rintro rfl
  cases h

theorem front_ne {k : TokenKind} (h : startsExpr (front fs).1 = true) (hk : startsExpr k = false) :
    (front fs).1 ≠ k := by
  rintro rfl
  rw [h] at hk
  cases hk

/-! ## Lists with commas -/

/-- **A loop over things with commas between them.** A round takes one thing, and the comma behind
it if there is one. What is kept is a relation between the things that are left and the state of the
loop. -/
theorem loops_commas {ι σ β : Type} {step : σ → Parse (Next σ β)} (faces : ι → List Face)
    (fits : ι → Prop)
    {I : List ι → σ → Prop} {Q : β → Prop} {is : List ι} (his : is ≠ [])
    (hfaces : ∀ i ∈ is, faces i ≠ [])
    (hlast : ∀ {i a}, i ∈ is → I [i] a →
      Reads bad (step a) (fits i) (faces i) rest fun r => ∃ b, r = .done b ∧ Q b)
    (hmore : ∀ {i j left a gs}, i ∈ is → j ∈ is → I (i :: j :: left) a →
      front gs = front (faces j) →
      Reads bad (step a) (fits i) (faces i ++ [TokenKind.face .comma]) gs fun r =>
        ∃ b, r = .again b ∧ I (j :: left) b)
    {a : σ} (ha : I is a) :
    Loops bad step a (∀ i ∈ is, fits i) (Format.commaFaces (is.map faces)) rest Q := by
  induction is generalizing a with
  | nil => exact absurd rfl his
  | cons i is ih =>
    cases is with
    | nil =>
      rw [List.map_singleton, Format.commaFaces_singleton]
      have hdone := Loops.done (hlast List.mem_cons_self ha)
      exact hdone.congr List.forall_mem_singleton.symm
    | cons j is =>
      have hj : j ∈ i :: j :: is := by simp
      have hsome : faces j ≠ [] := hfaces j hj
      have hfront : front (Format.commaFaces ((j :: is).map faces) ++ rest) = front (faces j) := by
        cases is with
        | nil =>
          rw [List.map_singleton, Format.commaFaces_singleton]
          exact front_append hsome _
        | cons k is =>
          rw [List.map_cons, List.map_cons, Format.commaFaces_cons_cons, List.append_assoc,
            List.append_assoc]
          exact front_append hsome _
      have hround := hmore List.mem_cons_self hj ha hfront
      have hloop := Loops.again hround (by simp) fun b hb =>
        ih (by simp) (fun k hk => hfaces k (List.mem_cons_of_mem _ hk))
          (fun hk => hlast (List.mem_cons_of_mem _ hk))
          (fun hk hl => hmore (List.mem_cons_of_mem _ hk) (List.mem_cons_of_mem _ hl)) hb
      rw [List.map_cons, List.map_cons, Format.commaFaces_cons_cons]
      exact hloop.congr List.forall_mem_cons.symm

/-- One round of a loop over things with commas between them, up to a token that is not taken. -/
def listStep {σ : Type} (stop : TokenKind) (item : σ → Parse σ) (a : σ) : Parse (Next σ σ) := do
  if ← check stop then return .done a
  let a ← item a
  if ← accept .comma then return .again a else return .done a

/-- A loop over things with commas between them, up to a token that is not taken. -/
theorem reads_list {ι σ : Type} {stop : TokenKind} {item : σ → Parse σ} (faces : ι → List Face)
    (fits : ι → Prop) {I : List ι → σ → Prop} {is : List ι}
    (hstop : (front rest).1 = stop) (hcomma : stop ≠ .comma)
    (hfaces : ∀ i ∈ is, (front (faces i)).1 ≠ stop ∧ faces i ≠ [])
    (hitem : ∀ {i left a gs}, i ∈ is → I (i :: left) a →
      (front gs).1 = .comma ∨ front gs = front rest →
      Reads bad (item a) (fits i) (faces i) gs (I left))
    {a : σ} (ha : I is a) :
    Reads bad (iterate (listStep stop item) a) (∀ i ∈ is, fits i)
      (Format.commaFaces (is.map faces)) rest
      (I []) := by
  apply reads_iterate
  by_cases his : is = []
  · subst his
    have hdone : Loops bad (listStep stop item) a True [] rest (I []) := by
      apply Loops.done
      refine reads_check_pos (by rwa [List.nil_append]) ?_
      exact reads_pure ⟨a, rfl, ha⟩
    apply hdone.congr
    simp
  · refine loops_commas faces fits his (fun i hi => (hfaces i hi).2) ?_ ?_ ha
    · intro i a hi ha
      obtain ⟨hne, hsome⟩ := hfaces i hi
      apply reads_check_neg
      · rw [front_append hsome]
        exact hne
      · apply (hitem hi ha (.inr rfl)).last
        intro b hb
        apply reads_accept_neg
        · rw [List.nil_append, hstop]
          exact hcomma
        · exact reads_pure ⟨b, rfl, hb⟩
    · intro i j left a gs hi hj ha hgs
      obtain ⟨hne, hsome⟩ := hfaces i hi
      apply reads_check_neg
      · rw [List.append_assoc, front_append hsome]
        exact hne
      · refine ((hitem hi ha (.inl rfl)).bind (G := True) fun b hb => ?_).congr
          (and_iff_left trivial)
        refine reads_accept_pos rfl (by nofun) ?_
        exact reads_pure ⟨b, rfl, hb⟩

/-! ## Expressions and their places -/

/-- Some faces that are read as an expression, and how deep it is nested. -/
structure Item where
  levels : Nat
  faces : List Face
  value : Expr Unit

/-- The depth that some expressions need. -/
def depthOf (is : List Item) : Nat := is.foldr (fun i n => max i.levels n) 0

theorem depthOf_le_iff {is : List Item} : depthOf is ≤ d ↔ ∀ i ∈ is, i.levels ≤ d := by
  induction is with
  | nil => simp [depthOf]
  | cons i is ih =>
    rw [List.forall_mem_cons, ← ih]
    exact Nat.max_le

/-- One round of the loop over attributes, subscripts and calls. -/
def suffixStep (expr : Parse MarkedExpr) (e : MarkedExpr) : Parse (Next MarkedExpr MarkedExpr) := do
  match ← peekKind with
  | .dot =>
    let _ ← advance
    let name ← expect .identifier
    return .again (.attr (← register .attr e.mark.pos) e name.value .load)
  | .opening .square => return .again (← subscript expr e)
  | .opening .paren => return .again (← call expr e)
  | _ => return .done e

theorem suffixes_eq (expr : Parse MarkedExpr) (e : MarkedExpr) :
    suffixes expr e = iterate (suffixStep expr) e := rfl

/-- The head of an operand: attributes, calls and subscripts may follow. It is no operator and no
lambda, and no string may follow, since that could be a part of it. -/
structure AsHead (n : Nat) (fs : List Face) (e : Expr Unit) : Prop where
  starts : startsExpr (front fs).1 = true
  plain : unary? (front fs).1 = none ∧ (front fs).1 ≠ .keyword .lambda
  deep : 2 ≤ n
  reads : ∀ (d : Nat) {G : Prop} (gs rest : List Face) {Q : MarkedExpr → Prop},
    (front (gs ++ rest)).1 ≠ .string →
    (∀ r : MarkedExpr, r.erase = e → Loops IsTooDeep (suffixStep (expression d)) r G gs rest Q) →
    Reads IsTooDeep (do suffixes (expression d) (← atom (expression d))) (n ≤ d + 2 ∧ G)
      (fs ++ gs) rest Q

/-- An operand. -/
structure AsOperand (n : Nat) (fs : List Face) (e : Expr Unit) : Prop where
  starts : startsExpr (front fs).1 = true
  deep : 2 ≤ n
  reads : ∀ (d : Nat) (rest : List Face), Closes (front rest) →
    ReadsAs (operand d) (n ≤ d + 1) fs rest e

/-- The left side of operators, and whether it was made by operators itself. -/
structure AsChain (folded : Bool) (n : Nat) (fs : List Face) (e : Expr Unit) : Prop where
  starts : startsExpr (front fs).1 = true
  deep : 2 ≤ n
  reads : ∀ (d : Nat) (pos : Position) {G : Prop} (gs rest : List Face) {Q : MarkedExpr → Prop},
    Closes (front (gs ++ rest)) →
    (∀ r : MarkedExpr, r.erase = e →
      Loops IsTooDeep (operatorStep (operand d) pos) (r, folded) G gs rest Q) →
    Reads IsTooDeep (do operators (operand d) pos (← operand d)) (n ≤ d + 1 ∧ G) (fs ++ gs) rest Q

/-- An expression. -/
structure AsExpression (n : Nat) (fs : List Face) (e : Expr Unit) : Prop where
  starts : startsExpr (front fs).1 = true
  deep : 2 ≤ n
  reads : ∀ (d : Nat) (rest : List Face), Stops (front rest) →
    ReadsAs (expression d) (n ≤ d) fs rest e

/-- What may stand in parentheses: an expression, or the elements of a tuple. -/
structure AsEnclosed (n : Nat) (fs : List Face) (e : Expr Unit) : Prop where
  reads : ∀ (d : Nat) (rest : List Face),
    ReadsAs (paren (expression d)) (n ≤ d) (Format.enclosed .paren fs) rest e

/-- An item is read as what it is. -/
abbrev Item.Sound (i : Item) : Prop := AsExpression i.levels i.faces i.value

theorem Item.Sound.ne_nil {i : Item} (h : i.Sound) : i.faces ≠ [] := by
  intro hnil
  have hstarts := h.starts
  rw [hnil] at hstarts
  cases hstarts

/-- A mark behind an expression ends it. -/
theorem stops_of_kind {x : Face}
    (h : x.1 = .comma ∨ x.1 = .colon ∨ x.1 = .assign ∨ ∃ b, x.1 = .closing b) :
    Stops x := by
  unfold Stops Closes
  rcases h with h | h | h | ⟨b, h⟩
  all_goals
    rw [h]
    exact ⟨⟨nofun, nofun, nofun, nofun⟩, rfl⟩

/-! ## From a place to a wider one -/

/-- Attributes, calls and subscripts end in front of what does not go on with an operand. -/
theorem loops_suffixes {expr : Parse MarkedExpr} {r : MarkedExpr} {Q : MarkedExpr → Prop}
    (hcloses : Closes (front rest)) (hr : Q r) : Loops bad (suffixStep expr) r True [] rest Q := by
  obtain ⟨-, hdot, hparen, hsquare⟩ := hcloses
  apply Loops.done
  apply reads_peekKind_bind
  split
  · next h => exact absurd h hdot
  · next h => exact absurd h hsquare
  · next h => exact absurd h hparen
  · exact reads_pure ⟨r, rfl, hr⟩

/-- Operators end in front of what is none. -/
theorem loops_operatorStep {p : Parse MarkedExpr} {pos : Position} {r : MarkedExpr} {folded : Bool}
    {Q : MarkedExpr → Prop} (h : beginsInfix (front rest).1 = false) (hr : Q r) :
    Loops bad (operatorStep p pos) (r, folded) True [] rest Q := by
  apply Loops.done
  apply (reads_operator?_none h).last
  rintro _ rfl
  exact reads_pure ⟨r, rfl, hr⟩

theorem AsHead.operand (h : AsHead n fs e) : AsOperand n fs e where
  starts := h.starts
  deep := h.deep
  reads d rest hcloses := by
    have hdeep := h.deep
    cases d with
    | zero => exact reads_tooDeep (by omega)
    | succ d =>
      refine reads_peek_bind fun token htoken => ?_
      have hkind : token.kind = (front fs).1 := by
        rw [front_eq h.starts] at htoken
        exact congrArg Prod.fst htoken
      obtain ⟨hunary, hlambda⟩ := h.plain
      rw [← hkind] at hunary hlambda
      simp only [hunary, if_neg hlambda]
      have hreads := h.reads d (G := True) [] rest (Q := fun r => r.erase = e)
        hcloses.1 fun r hr => loops_suffixes hcloses hr
      rw [List.append_nil] at hreads
      exact hreads.congr (and_iff_left trivial)

theorem AsOperand.chain (h : AsOperand n fs e) : AsChain false n fs e where
  starts := h.starts
  deep := h.deep
  reads d pos G gs rest Q hcloses hloop := by
    apply (h.reads d _ hcloses).bind
    intro r hr
    rw [operators_eq]
    exact reads_iterate (hloop r hr)

/-- What an operator makes of the left side and of an operand is the left side of the next one. -/
theorem AsChain.push {folded : Bool} (h : AsChain folded n fs e) (op : Infix)
    (h' : AsOperand m gs e')
    (his : op = .comparison .is → (front gs).1 ≠ .keyword .not) :
    AsChain true (max n m) (fs ++ op.faces ++ gs) (op.join e folded e') where
  starts := by
    rw [List.append_assoc, front_eq h.starts]
    exact h.starts
  deep := Nat.le_trans h.deep (Nat.le_max_left n m)
  reads d pos G hs rest Q hcloses hloop := by
    obtain ⟨hne, hop⟩ := op.closes_faces
    have hsome : gs ≠ [] := by
      rintro rfl
      cases h'.starts
    have hleft := h.reads d pos (G := m ≤ d + 1 ∧ G) (op.faces ++ gs ++ hs) rest (Q := Q)
      (by rw [List.append_assoc, List.append_assoc, front_append hne]; exact hop) fun r hr => ?_
    · rw [List.append_assoc, List.append_assoc]
      rw [List.append_assoc] at hleft
      apply hleft.congr
      rw [Nat.max_le, and_assoc]
    · -- one round of the loop takes the operator and the operand, and the loop goes on
      have hround := reads_operatorStep his hsome (h'.reads d _ hcloses) pos r folded
      refine Loops.again (I := fun x => x.2 = true ∧ x.1.erase = op.join e folded e')
        (hround.imp ?_)
        (List.append_ne_nil_of_left_ne_nil hne _) ?_
      · rintro _ ⟨r', rfl, hr'⟩
        exact ⟨_, rfl, rfl, by rw [hr', hr]⟩
      · rintro ⟨r', _⟩ ⟨rfl, hr'⟩
        exact hloop r' hr'

theorem AsChain.expression {folded : Bool} (h : AsChain folded n fs e) : AsExpression n fs e where
  starts := h.starts
  deep := h.deep
  reads d rest hstops := by
    have hdeep := h.deep
    cases d with
    | zero => exact reads_tooDeep (by omega)
    | succ d =>
      refine reads_peek_bind fun first _ => ?_
      have hreads := h.reads d first.pos (G := True) [] rest (Q := fun r => r.erase = e)
        hstops.1 fun r hr => loops_operatorStep hstops.2 hr
      rw [List.append_nil] at hreads
      exact hreads.congr (and_iff_left trivial)

/-! ## Parentheses -/

theorem enclosed_eq (b : Bracket) (fs : List Face) :
    Format.enclosed b fs = TokenKind.face (.opening b) ::
      (fs ++ [TokenKind.face (.closing b)]) := rfl

theorem AsExpression.enclosed (h : AsExpression n fs e) : AsEnclosed n fs e where
  reads d rest := by
    rw [enclosed_eq]
    refine reads_advance_bind (by nofun) fun bracket _ => ?_
    apply reads_accept_neg
    · rw [List.append_assoc, front_eq h.starts]
      exact front_ne h.starts rfl
    · have hexpr := h.reads d ([TokenKind.face (.closing .paren)] ++ rest)
        (stops_of_kind (.inr (.inr (.inr ⟨_, rfl⟩))))
      refine (hexpr.bind (G := True) fun first hfirst => ?_).congr (and_iff_left trivial)
      apply reads_accept_neg (by nofun)
      refine reads_expect_bind rfl (by nofun) fun _ _ => ?_
      exact reads_pure hfirst

theorem asHead_of_atom (hstarts : startsExpr (front fs).1 = true)
    (hplain : unary? (front fs).1 = none ∧ (front fs).1 ≠ .keyword .lambda) (hdeep : 2 ≤ n)
    (h : ∀ d rest, (front rest).1 ≠ .string → ReadsAs (atom (expression d)) (n ≤ d + 2) fs rest e) :
    AsHead n fs e where
  starts := hstarts
  plain := hplain
  deep := hdeep
  reads d G gs rest Q hstring hloop := by
    apply (h d _ hstring).bind
    intro r hr
    rw [suffixes_eq]
    exact reads_iterate (hloop r hr)

/-- Parentheses make a head of what stands in them. -/
theorem AsEnclosed.head (h : AsEnclosed n fs e) : AsHead (n + 2) (Format.enclosed .paren fs) e := by
  refine asHead_of_atom rfl ⟨rfl, by nofun⟩ (Nat.le_add_left 2 n) fun d rest _ => ?_
  refine reads_peek_bind fun token htoken => ?_
  have hkind : token.kind = .opening .paren := congrArg Prod.fst htoken
  simp only [hkind]
  apply (h.reads d rest).congr
  omega

/-! ## Elements -/

/-- Expressions with commas between them, up to a closing bracket. -/
theorem reads_elements {close : Bracket} {is : List Item} (his : ∀ i ∈ is, i.Sound)
    (rest : List Face)
    (hclose : (front rest).1 = .closing close) :
    Reads IsTooDeep (elements (expression d) close) (∀ i ∈ is, i.levels ≤ d)
      (Format.commaFaces (is.map Item.faces)) rest
      fun es => es.map Expr.erase = is.map Item.value := by
  have heq : elements (expression d) close =
      iterate (listStep (.closing close) fun es => do return es ++ [← expression d]) [] := by
    unfold elements listStep
    simp only [bind_assoc, pure_bind]
  rw [heq]
  apply Reads.imp
  · refine reads_list Item.faces (fun i => i.levels ≤ d) hclose (by nofun)
      (I := fun left es => es.map Expr.erase ++ left.map Item.value = is.map Item.value)
      (fun i hi => ⟨front_ne (his i hi).starts rfl, (his i hi).ne_nil⟩) ?_ rfl
    intro i left es gs hi hes hgs
    have hstops : Stops (front gs) := by
      apply stops_of_kind
      rcases hgs with hgs | hgs
      · exact .inl hgs
      · exact .inr (.inr (.inr ⟨close, by rw [hgs, hclose]⟩))
    apply ((his i hi).reads d _ hstops).last
    intro e he
    apply reads_pure
    rw [← hes]
    simp [he]
  · intro es hes
    rwa [List.map_nil, List.append_nil] at hes

/-- The elements of a tuple, in parentheses. -/
theorem asEnclosed_tuple {is : List Item} (his : ∀ i ∈ is, i.Sound) :
    AsEnclosed (depthOf is) (Format.elementFaces (is.map Item.faces))
      (.tuple () (is.map Item.value) .load) where
  reads d rest := by
    rw [enclosed_eq]
    refine reads_advance_bind (by nofun) fun bracket _ => ?_
    cases is with
    | nil =>
      have hempty : depthOf [] ≤ d := Nat.zero_le d
      refine Reads.congr (F := True) ?_ (iff_of_true trivial hempty)
      refine reads_accept_pos rfl (by nofun) ?_
      exact reads_register_bind fun m => reads_pure (Expr.erase_tuple m [] .load)
    | cons i is =>
      rw [List.forall_mem_cons] at his
      obtain ⟨hi, his⟩ := his
      -- the elements behind the first one, and the bracket
      let close := [TokenKind.face (.closing .paren)]
      have hfaces : Format.elementFaces ((i :: is).map Item.faces) ++ close =
          i.faces ++ (TokenKind.face .comma ::
            (Format.commaFaces (is.map Item.faces) ++ close)) := by
        cases is with
        | nil => simp [Format.elementFaces, Format.commaFaces]
        | cons j is =>
          have helements : Format.elementFaces ((i :: j :: is).map Item.faces) =
            Format.commaFaces ((i :: j :: is).map Item.faces) := rfl
          rw [helements, List.map_cons, List.map_cons, Format.commaFaces_cons_cons]
          simp
      show Reads _ _ _ (Format.elementFaces ((i :: is).map Item.faces) ++ close) _ _
      rw [hfaces]
      apply reads_accept_neg
      · rw [List.append_assoc, front_eq hi.starts]
        exact front_ne hi.starts rfl
      have hfirst := hi.reads d (TokenKind.face .comma ::
        (Format.commaFaces (is.map Item.faces) ++ close) ++ rest) (stops_of_kind (.inl rfl))
      refine (hfirst.bind (G := ∀ j ∈ is, j.levels ≤ d) fun first hfirst => ?_).congr ?_
      · refine reads_accept_pos rfl (by nofun) ?_
        have hrest := reads_elements (d := d) his (close ++ rest) rfl
        refine (hrest.bind (G := True) fun es hes => ?_).congr (and_iff_left trivial)
        refine reads_expect_bind rfl (by nofun) fun _ _ => ?_
        refine reads_register_bind fun m => reads_pure ?_
        rw [Expr.erase_tuple, List.map_cons, List.map_cons, hfirst, hes]
      · rw [depthOf_le_iff, List.forall_mem_cons]

/-- A list. -/
theorem asHead_list {is : List Item} (his : ∀ i ∈ is, i.Sound) :
    AsHead (depthOf is + 2) (Format.enclosed .square (Format.commaFaces (is.map Item.faces)))
      (.list () (is.map Item.value) .load) := by
  refine asHead_of_atom rfl ⟨rfl, by nofun⟩ (Nat.le_add_left 2 _) fun d rest _ => ?_
  refine reads_peek_bind fun token htoken => ?_
  have hkind : token.kind = .opening .square := congrArg Prod.fst htoken
  simp only [hkind]
  rw [enclosed_eq]
  refine reads_advance_bind (by nofun) fun bracket _ => ?_
  have helements := reads_elements (d := d) his
    ([TokenKind.face (.closing .square)] ++ rest) rfl
  refine (helements.bind (G := True) fun es hes => ?_).congr ?_
  · refine reads_expect_bind rfl (by nofun) fun _ _ => ?_
    refine reads_register_bind fun m => reads_pure ?_
    rw [Expr.erase_list, hes]
  · rw [and_iff_left trivial, ← depthOf_le_iff]
    omega

/-- The key and the value of an item of a dictionary. -/
structure Entry where
  key : Item
  value : Item

/-- The faces of an item of a dictionary. -/
def Entry.faces (p : Entry) : List Face := p.key.faces ++ TokenKind.face .colon :: p.value.faces

/-- The values of an item of a dictionary. -/
def Entry.pair (p : Entry) : Expr Unit × Expr Unit := (p.key.value, p.value.value)

/-- One item of a dictionary is read. -/
def dictItem (expr : Parse MarkedExpr) (items : List (MarkedExpr × MarkedExpr)) :
    Parse (List (MarkedExpr × MarkedExpr)) := do
  let key ← expr
  let _ ← expect .colon
  let value ← expr
  return items ++ [(key, value)]

theorem dictDisplay_eq (expr : Parse MarkedExpr) :
    dictDisplay expr = do
      let bracket ← advance
      let items ← iterate (listStep (.closing .brace) (dictItem expr)) []
      let _ ← expect (.closing .brace)
      return .dict (← register .dict bracket.pos) items := by
  unfold dictDisplay listStep dictItem
  simp only [bind_assoc, pure_bind]

/-- An item of a dictionary, in front of what may stand behind it. -/
theorem reads_dictItem {p : Entry} (hkey : p.key.Sound) (hvalue : p.value.Sound)
    (items : List (MarkedExpr × MarkedExpr))
    (hrest : (front rest).1 = .comma ∨ (front rest).1 = .closing .brace) :
    Reads IsTooDeep (dictItem (expression d) items)
      (p.key.levels ≤ d ∧ p.value.levels ≤ d) p.faces rest
      fun r => r.map (fun q => (q.1.erase, q.2.erase)) =
        items.map (fun q => (q.1.erase, q.2.erase)) ++ [p.pair] := by
  have hstops : Stops (front rest) := by
    apply stops_of_kind
    rcases hrest with hrest | hrest
    · exact .inl hrest
    · exact .inr (.inr (.inr ⟨.brace, hrest⟩))
  have hcolon : Stops (front (TokenKind.face .colon :: p.value.faces ++ rest)) :=
    stops_of_kind (.inr (.inl rfl))
  apply (hkey.reads d _ hcolon).bind
  intro key hkey
  refine reads_expect_bind rfl (by nofun) fun _ _ => ?_
  apply (hvalue.reads d _ hstops).last
  intro value hvalue
  apply reads_pure
  simp [Entry.pair, hkey, hvalue]

/-- A dictionary. -/
theorem asHead_dict {ps : List Entry} (hps : ∀ p ∈ ps, p.key.Sound ∧ p.value.Sound) :
    AsHead (depthOf (ps.flatMap fun p => [p.key, p.value]) + 2)
      (Format.enclosed .brace (Format.commaFaces (ps.map Entry.faces)))
        (.dict () (ps.map Entry.pair)) := by
  refine asHead_of_atom rfl ⟨rfl, by nofun⟩ (Nat.le_add_left 2 _) fun d rest _ => ?_
  refine reads_peek_bind fun token htoken => ?_
  have hkind : token.kind = .opening .brace := congrArg Prod.fst htoken
  simp only [hkind]
  rw [dictDisplay_eq, enclosed_eq]
  refine reads_advance_bind (by nofun) fun bracket _ => ?_
  have hlist : Reads IsTooDeep (iterate (listStep (.closing .brace) (dictItem (expression d))) [])
      (∀ p ∈ ps, p.key.levels ≤ d ∧ p.value.levels ≤ d) (Format.commaFaces (ps.map Entry.faces))
      ([TokenKind.face (.closing .brace)] ++ rest)
      fun items => items.map (fun q => (q.1.erase, q.2.erase)) ++ [].map Entry.pair =
        ps.map Entry.pair := by
    refine reads_list Entry.faces _ (by rfl) (by nofun)
      (I := fun left (items : List (MarkedExpr × MarkedExpr)) =>
      items.map (fun q => (q.1.erase, q.2.erase)) ++ left.map Entry.pair = ps.map Entry.pair) ?_ ?_
        rfl
    · intro p hp
      obtain ⟨hkey, -⟩ := hps p hp
      have hfront : front p.faces = front p.key.faces := front_eq hkey.starts _
      refine ⟨?_, List.append_ne_nil_of_left_ne_nil hkey.ne_nil _⟩
      rw [hfront]
      exact front_ne hkey.starts rfl
    · intro p left items gs hp hitems hgs
      obtain ⟨hkey, hvalue⟩ := hps p hp
      apply (reads_dictItem hkey hvalue items (hgs.imp_right fun h => by rw [h]; rfl)).imp
      intro r hr
      rw [hr, ← hitems, List.map_cons, List.append_assoc]
      rfl
  refine (hlist.bind (G := True) fun items hitems => ?_).congr ?_
  · refine reads_expect_bind rfl (by nofun) fun _ _ => ?_
    refine reads_register_bind fun m => reads_pure ?_
    rw [List.map_nil, List.append_nil] at hitems
    rw [Expr.erase_dict, hitems]
  · rw [and_iff_left trivial, Nat.add_le_add_iff_right, depthOf_le_iff, List.forall_mem_flatMap]
    simp only [List.forall_mem_cons, List.not_mem_nil, IsEmpty.forall_iff, implies_true, and_true]

/-! ## Names and constants -/

/-- A token that is taken and made an expression. -/
theorem asHead_of_token {x : Face} {p : Token → Parse MarkedExpr} (hstarts : startsExpr x.1 = true)
    (hplain : unary? x.1 = none ∧ x.1 ≠ .keyword .lambda)
    (hatom : ∀ d, ∃ f, atom (expression d) = peek >>= f ∧
      ∀ t : Token, t.face = x → f t = advance >>= fun _ => p t)
    (hp : ∀ (t : Token) (rest : List Face), t.face = x → (front rest).1 ≠ .string →
      ReadsAs (p t) True [] rest e) : AsHead 2 [x] e := by
  refine asHead_of_atom hstarts hplain (Nat.le_refl 2) fun d rest hstring => ?_
  obtain ⟨f, heq, hf⟩ := hatom d
  rw [heq]
  refine Reads.congr (F := True) ?_ (iff_of_true trivial (Nat.le_add_left 2 d))
  refine reads_peek_bind fun token htoken => ?_
  rw [hf token htoken]
  apply reads_advance_bind
  · intro hfinish
    rw [hfinish] at hstarts
    cases hstarts
  · intro _ _
    exact hp token rest htoken hstring

theorem asHead_name (id : String) : AsHead 2 [Format.nameFace id] (.name () id .load) := by
  refine asHead_of_token rfl ⟨rfl, by nofun⟩ (fun d => ⟨_, rfl, fun t ht => ?_⟩)
    (fun t rest ht _ => ?_)
    (p := fun t => do return .name (← register .name t.pos) t.value .load)
  · have hkind : t.kind = .identifier := congrArg Prod.fst ht
    simp only [hkind]
  · have hvalue : t.value = id := congrArg Prod.snd ht
    refine reads_register_bind fun m => reads_pure ?_
    rw [Expr.erase_name, hvalue]

theorem reads_constantAt (token : Token) (v : Literal) :
    ReadsAs (constantAt token v) True [] rest (.constant () v) :=
  reads_register_bind fun m => reads_pure (Expr.erase_constant m v)

/-- A string has no other one behind it. -/
theorem reads_adjacentStrings (s : String) (h : (front rest).1 ≠ .string) :
    Reads bad (adjacentStrings s) True [] rest fun r => r = s := by
  apply reads_iterate
  apply Loops.done
  refine reads_check_neg h ?_
  exact reads_pure ⟨s, rfl, rfl⟩

/-- A constant is read back from its token. -/
theorem asHead_constant {v : Literal} (h : v.WellFormed) :
    AsHead 2 [Format.literalFace v] (.constant () v) := by
  have hconstant {x : Face} {t : Token} (ht : t.face = x) : t.kind = x.1 ∧ t.value = x.2 :=
    ⟨congrArg Prod.fst ht, congrArg Prod.snd ht⟩
  cases v with
  | none =>
    refine asHead_of_token rfl ⟨rfl, by nofun⟩ (fun d => ⟨_, rfl, fun t ht => ?_⟩)
      fun t rest _ _ => reads_constantAt t .none
    simp only [(hconstant ht).1]
    rfl
  | bool b =>
    cases b with
    | true =>
      refine asHead_of_token rfl ⟨rfl, by nofun⟩ (fun d => ⟨_, rfl, fun t ht => ?_⟩)
        fun t rest _ _ => reads_constantAt t (.bool true)
      simp only [(hconstant ht).1]
      rfl
    | false =>
      refine asHead_of_token rfl ⟨rfl, by nofun⟩ (fun d => ⟨_, rfl, fun t ht => ?_⟩)
        fun t rest _ _ => reads_constantAt t (.bool false)
      simp only [(hconstant ht).1]
      rfl
  | int n =>
    refine asHead_of_token rfl ⟨rfl, by nofun⟩ (fun d => ⟨_, rfl, fun t ht => ?_⟩)
      fun t rest _ _ => reads_constantAt t (.int n)
    obtain ⟨hkind, hvalue⟩ := hconstant ht
    have hread : integer? t.value = some n := by
      rw [hvalue]
      exact Format.integer?_integer h
    simp only [hkind, hread]
    rfl
  | float x =>
    refine asHead_of_token rfl ⟨rfl, by nofun⟩ (fun d => ⟨_, rfl, fun t ht => ?_⟩)
      fun t rest _ _ => reads_constantAt t (.float x)
    obtain ⟨hkind, hvalue⟩ := hconstant ht
    have hread : Binary64.ofDecimal? t.value.toList = some x := by
      rw [hvalue]
      show Binary64.ofDecimal? (String.ofList (Format.float x)).toList = some x
      rw [String.toList_ofList]
      exact Format.ofDecimal?_float h
    simp only [hkind, hread]
    rfl
  | str s =>
    refine asHead_of_token rfl ⟨rfl, by nofun⟩ (fun d => ⟨_, rfl, fun t ht => ?_⟩)
      (fun t rest ht hstring => ?_)
      (p := fun t => do constantAt t (.str (← adjacentStrings t.value)))
    · simp only [(hconstant ht).1]
      rfl
    · rw [(hconstant ht).2]
      apply (reads_adjacentStrings s hstring).last
      intro r hr
      rw [hr]
      exact reads_constantAt t (.str s)

/-! ## Attributes, calls and subscripts -/

theorem AsHead.attr (h : AsHead n fs e) (id : String) :
    AsHead n (fs ++ [TokenKind.face .dot, Format.nameFace id]) (.attr () e id .load) where
  starts := by
    rw [front_eq h.starts]
    exact h.starts
  plain := by
    rw [front_eq h.starts]
    exact h.plain
  deep := h.deep
  reads d G gs rest Q hstring hloop := by
    have hhead := h.reads d (G := G) ([TokenKind.face .dot, Format.nameFace id] ++ gs) rest
      (Q := Q) (by nofun) fun r hr => ?_
    · rwa [← List.append_assoc] at hhead
    · refine (Loops.again (F := True) (I := fun r : MarkedExpr => r.erase = .attr () e id .load) ?_
        (by nofun) hloop).congr (and_iff_right trivial)
      apply reads_peekKind_bind
      refine reads_advance_bind (by nofun) fun _ _ => ?_
      refine reads_expect_bind rfl (by nofun) fun name hname => ?_
      refine reads_register_bind fun m => reads_pure ⟨_, rfl, ?_⟩
      have hvalue : name.value = id := congrArg Prod.snd hname
      rw [Expr.erase_attr, hr, hvalue]

/-- Some faces are read as what stands behind a head in brackets. -/
theorem AsHead.bracket {b : Bracket} {m : Nat} {value : Expr Unit} (h : AsHead n fs e)
    (hstep : ∀ (d : Nat) (r : MarkedExpr) (rest : List Face), r.erase = e →
      Reads IsTooDeep (suffixStep (expression d) r) (m ≤ d) (Format.enclosed b gs) rest
        fun next => ∃ r' : MarkedExpr, next = .again r' ∧ r'.erase = value) :
    AsHead (max n (m + 2)) (fs ++ Format.enclosed b gs) value where
  starts := by
    rw [front_eq h.starts]
    exact h.starts
  plain := by
    rw [front_eq h.starts]
    exact h.plain
  deep := Nat.le_trans h.deep (Nat.le_max_left _ _)
  reads d G hs rest Q hstring hloop := by
    have hhead := h.reads d (G := m ≤ d ∧ G) (Format.enclosed b gs ++ hs) rest
      (Q := Q) (by cases b <;> nofun) fun r hr => ?_
    · rw [← List.append_assoc] at hhead
      apply hhead.congr
      rw [Nat.max_le, Nat.add_le_add_iff_right, and_assoc]
    · exact Loops.again (hstep d r (hs ++ rest) hr) (by cases b <;> nofun) hloop

/-- A keyword argument, or a mapping whose items are keyword arguments. -/
structure KeywordItem where
  name : Option String
  item : Item

namespace KeywordItem

/-- The faces of a keyword argument. -/
def faces (k : KeywordItem) : List Face :=
  (match k.name with
    | some name => [Format.nameFace name, TokenKind.face .assign]
    | none => [TokenKind.face (.binary .pow)]) ++ k.item.faces

/-- A keyword argument in a call. -/
def arg (k : KeywordItem) : KeywordArg Unit (Expr Unit) := ⟨(), k.name, k.item.value⟩

theorem faces_ne_nil (k : KeywordItem) : k.faces ≠ [] := by
  unfold faces
  cases k.name <;> nofun

end KeywordItem

/-- The faces of an argument of a call. -/
def argumentFaces (a : Item ⊕ KeywordItem) : List Face := a.elim Item.faces KeywordItem.faces

/-- The depth that an argument of a call needs. -/
def argumentLevels (a : Item ⊕ KeywordItem) : Nat := a.elim Item.levels fun k => k.item.levels

/-- An argument of a call is read as what it is. -/
def ArgumentSound (a : Item ⊕ KeywordItem) : Prop := a.elim Item.Sound fun k => k.item.Sound

/-- The arguments that were read and those that are left are positional ones and keyword arguments.
After a keyword argument no positional one is left. -/
def ArgumentsLeft (args : List (Expr Unit)) (keywords : List (KeywordArg Unit (Expr Unit)))
    (left : List (Item ⊕ KeywordItem)) (a : Arguments) : Prop :=
  ∃ (is : List Item) (ks : List KeywordItem), left = is.map .inl ++ ks.map .inr ∧
    a.args.map Expr.erase ++ is.map Item.value = args ∧
    a.keywords.map KeywordArg.erase ++ ks.map KeywordItem.arg = keywords ∧
      (is ≠ [] → a.keywords = [])

/-- One argument of a call. -/
theorem reads_argument {args : List (Expr Unit)} {keywords : List (KeywordArg Unit (Expr Unit))}
    {x : Item ⊕ KeywordItem} {left : List (Item ⊕ KeywordItem)} {a : Arguments}
    (hx : ArgumentSound x)
    (ha : ArgumentsLeft args keywords (x :: left) a)
    (hgs : (front gs).1 = .comma ∨ (front gs).1 = .closing .paren) :
    Reads IsTooDeep (argument (expression d) a) (argumentLevels x ≤ d) (argumentFaces x) gs
      (ArgumentsLeft args keywords left) := by
  obtain ⟨is, ks, hleft, hargs, hkeywords, hempty⟩ := ha
  have hstops : Stops (front gs) := by
    apply stops_of_kind
    rcases hgs with hgs | hgs
    · exact .inl hgs
    · exact .inr (.inr (.inr ⟨_, hgs⟩))
  refine reads_peek_bind fun token _ => ?_
  cases is with
  | cons i is =>
    obtain ⟨rfl, rfl⟩ := List.cons.inj hleft
    have hi : i.Sound := hx
    apply reads_accept_neg
    · show (front (i.faces ++ gs)).1 ≠ _
      rw [front_eq hi.starts]
      exact front_ne hi.starts rfl
    apply (hi.reads d _ hstops).last
    intro arg harg
    apply reads_check_neg
    · rw [List.nil_append]
      rcases hgs with hgs | hgs
      · rw [hgs]
        nofun
      · rw [hgs]
        nofun
    · have hnone : a.keywords = [] := hempty (List.cons_ne_nil _ _)
      simp only [hnone, List.isEmpty_nil, if_true]
      refine reads_pure ⟨is, ks, rfl, ?_, ?_, fun _ => rfl⟩
      · rw [← hargs]
        simp [harg]
      · rw [← hkeywords, hnone]
  | nil =>
    obtain ⟨k, ks, rfl, rfl, rfl⟩ := List.map_eq_cons_iff.mp hleft.symm
    have hi : k.item.Sound := hx
    have hdeep := hi.deep
    -- the value, behind the name or the stars
    have hvalue : Reads IsTooDeep (do
        let value ← expression d
        let mark ← register .keyword token.pos
        return { a with keywords := a.keywords ++ [⟨mark, k.name, value⟩] }) (k.item.levels ≤ d)
        k.item.faces gs (ArgumentsLeft args keywords (ks.map .inr)) := by
      apply (hi.reads d _ hstops).last
      intro value hvalue
      refine reads_register_bind fun m => reads_pure ⟨[], ks, rfl, hargs, ?_, fun h => absurd rfl h⟩
      rw [← hkeywords]
      simp [KeywordArg.erase, KeywordItem.arg, hvalue]
    obtain ⟨name, item⟩ := k
    cases name with
    | none => exact reads_accept_pos rfl (by simp) hvalue
    | some name =>
      apply reads_accept_neg (fun h => TokenKind.noConfusion h)
      have hname := (asHead_name name).operand.chain.expression.reads d
        (TokenKind.face .assign :: item.faces ++ gs) (stops_of_kind (.inr (.inr (.inl rfl))))
      refine (hname.bind fun arg harg => ?_).congr (and_iff_right_of_imp (Nat.le_trans hdeep))
      apply reads_check_pos rfl
      obtain ⟨m, rfl⟩ : ∃ m, arg = .name m name .load := by
        cases arg <;> simp at harg
        exact ⟨_, by rw [harg.1, harg.2]⟩
      exact reads_advance_bind (fun h => TokenKind.noConfusion h) fun _ _ => hvalue

/-- The arguments of a call in their order: the positional ones, then the keyword arguments. -/
def argumentsOf (is : List Item) (ks : List KeywordItem) : List (Item ⊕ KeywordItem) :=
  is.map .inl ++ ks.map .inr

theorem map_argumentFaces (is : List Item) (ks : List KeywordItem) :
    (argumentsOf is ks).map argumentFaces = is.map Item.faces ++ ks.map KeywordItem.faces := by
  rw [argumentsOf, List.map_append, List.map_map, List.map_map]
  rfl

/-- The arguments of a call. -/
theorem AsHead.call (h : AsHead n fs e) {is : List Item} {ks : List KeywordItem}
    (his : ∀ i ∈ is, i.Sound) (hks : ∀ k ∈ ks, k.item.Sound) :
    AsHead (max n (depthOf (is ++ ks.map KeywordItem.item) + 2))
      (fs ++ Format.enclosed .paren
        (Format.commaFaces (is.map Item.faces ++ ks.map KeywordItem.faces)))
      (.call () e (is.map Item.value) (ks.map KeywordItem.arg)) := by
  apply h.bracket
  intro d r rest hr
  rw [enclosed_eq]
  apply reads_peekKind_bind
  refine Reads.last (R := fun r' : MarkedExpr => r'.erase = .call () e _ _) ?_ fun r' hr' =>
    reads_pure ⟨r', rfl, hr'⟩
  refine reads_advance_bind (by nofun) fun _ _ => ?_
  have hsound : ∀ x ∈ argumentsOf is ks, ArgumentSound x := by
    intro x hx
    rcases List.mem_append.mp hx with hx | hx
    · obtain ⟨i, hi, rfl⟩ := List.mem_map.mp hx
      exact his i hi
    · obtain ⟨k, hk, rfl⟩ := List.mem_map.mp hx
      exact hks k hk
  have hlist : Reads IsTooDeep (iterate (listStep (.closing .paren) (argument (expression d))) {})
      (∀ x ∈ argumentsOf is ks, argumentLevels x ≤ d)
      (Format.commaFaces ((argumentsOf is ks).map argumentFaces))
        ([TokenKind.face (.closing .paren)] ++ rest)
      (ArgumentsLeft (is.map Item.value) (ks.map KeywordItem.arg) []) := by
    refine reads_list argumentFaces _ (by rfl) (by nofun)
      (I := ArgumentsLeft (is.map Item.value) (ks.map KeywordItem.arg)) ?_
      (fun hx ha hgs => reads_argument (hsound _ hx) ha (hgs.imp id fun h => by rw [h]; rfl))
      ⟨is, ks, rfl, rfl, rfl, fun _ => rfl⟩
    intro x hx
    have hx := hsound x hx
    cases x with
    | inl i =>
      have hi : i.Sound := hx
      exact ⟨front_ne hi.starts rfl, hi.ne_nil⟩
    | inr k =>
      refine ⟨?_, k.faces_ne_nil⟩
      obtain ⟨name, item⟩ := k
      cases name <;> nofun
  rw [map_argumentFaces] at hlist
  refine (hlist.bind (G := True) fun a ha => ?_).congr ?_
  · refine reads_expect_bind rfl (by nofun) fun _ _ => ?_
    refine reads_register_bind fun m => reads_pure ?_
    obtain ⟨is', ks', hnil, hargs, hkeywords, -⟩ := ha
    obtain ⟨rfl, rfl⟩ : is' = [] ∧ ks' = [] := by simpa using hnil.symm
    rw [List.map_nil, List.append_nil] at hargs hkeywords
    rw [Expr.erase_call, hr, hargs, hkeywords]
  · rw [and_iff_left trivial, depthOf_le_iff]
    simp [argumentsOf, argumentLevels, or_imp, forall_and]

theorem forall_mem_none {P : Item → Prop} : ∀ i ∈ (none : Option Item), P i := by
  simp

theorem levels_le_some {i : Item} : i.levels ≤ d ↔ ∀ j ∈ some i, j.levels ≤ d := by
  simp

/-- An expression that may be missing, in front of what does not begin one. -/
theorem reads_expr? {o : Option Item} (ho : ∀ i ∈ o, i.Sound) (rest : List Face)
    (hstops : Stops (front rest))
    (hnone : startsExpr (front rest).1 = false) :
    Reads IsTooDeep (expr? (expression d)) (∀ i ∈ o, i.levels ≤ d) ((o.map Item.faces).getD []) rest
      fun r => r.map Expr.erase = o.map Item.value := by
  apply reads_peekKind_bind
  cases o with
  | none =>
    have hfront : startsExpr (front (((none : Option Item).map Item.faces).getD [] ++ rest)).1 =
      false := hnone
    rw [hfront]
    exact Reads.congr (reads_pure rfl) (iff_of_true trivial forall_mem_none)
  | some i =>
    have hi : i.Sound := ho i rfl
    have hfront : startsExpr (front (((some i).map Item.faces).getD [] ++ rest)).1 = true := by
      show startsExpr (front (i.faces ++ rest)).1 = true
      rw [front_eq hi.starts]
      exact hi.starts
    rw [hfront]
    have hvalue := (hi.reads d _ hstops).congr levels_le_some
    apply hvalue.last
    intro r hr
    exact reads_pure (congrArg some hr)

/-- A slice from its first colon on. -/
def sliceBounds (expr : Parse MarkedExpr) (pos : Position) (lower : Option MarkedExpr) :
    Parse MarkedExpr := do
  let _ ← expect .colon
  let upper ← expr? expr
  let step ← if ← accept .colon then expr? expr else pure none
  return .slice (← register .slice pos) lower upper step

theorem sliceItem_eq (expr : Parse MarkedExpr) :
    sliceItem expr = do
      let token ← peek
      if ← check .colon then sliceBounds expr token.pos none
      else
        let lower ← expr
        if ← check .colon then sliceBounds expr token.pos (some lower) else return lower := rfl

theorem reads_sliceBounds (lower : Option MarkedExpr) {value : Option (Expr Unit)}
    (hlower : lower.map Expr.erase = value) {upper step : Option Item}
    (hupper : ∀ i ∈ upper, i.Sound)
    (hstep : ∀ i ∈ step, i.Sound) (pos : Position) (hrest : (front rest).1 = .closing .square) :
    ReadsAs (sliceBounds (expression d) pos lower)
      ((∀ i ∈ upper, i.levels ≤ d) ∧ ∀ i ∈ step, i.levels ≤ d)
      (Format.sliceFaces none (upper.map Item.faces) (step.map Item.faces)) rest
      (.slice () value (upper.map Item.value) (step.map Item.value)) := by
  have hend {upper' step' : Option MarkedExpr}
    (hupper : upper'.map Expr.erase = upper.map Item.value)
    (hstep : step'.map Expr.erase = step.map Item.value) :
      ReadsAs (do return .slice (← register .slice pos) lower upper' step') True [] rest
        (.slice () value (upper.map Item.value) (step.map Item.value)) := by
    refine reads_register_bind fun m => reads_pure ?_
    rw [Expr.erase_slice, hlower, hupper, hstep]
  have hsquare : Stops (front rest) := stops_of_kind (.inr (.inr (.inr ⟨_, hrest⟩)))
  have hcolon : Stops (TokenKind.face .colon) := stops_of_kind (.inr (.inl rfl))
  refine reads_expect_bind rfl (by nofun) fun _ _ => ?_
  cases step with
  | none =>
    have hreads := reads_expr? (d := d) hupper ([] ++ rest) hsquare
      (by rw [List.nil_append, hrest]; rfl)
    refine (hreads.bind (G := True) fun upper' hupper' => ?_).congr (and_congr_right' ?_)
    · apply reads_accept_neg
      · rw [List.nil_append, hrest]
        nofun
      · exact hend hupper' rfl
    · exact iff_of_true trivial forall_mem_none
  | some i =>
    have hreads := reads_expr? (d := d) hupper (TokenKind.face .colon :: i.faces ++ rest) hcolon rfl
    apply hreads.bind
    intro upper' hupper'
    refine reads_accept_pos rfl (by nofun) ?_
    have hreads' := reads_expr? (d := d) hstep _ hsquare (by rw [hrest]; rfl)
    apply hreads'.last
    intro step' hstep'
    exact hend hupper' hstep'

/-- A slice. -/
theorem reads_slice {lower upper step : Option Item} (hlower : ∀ i ∈ lower, i.Sound)
    (hupper : ∀ i ∈ upper, i.Sound) (hstep : ∀ i ∈ step, i.Sound)
    (hrest : (front rest).1 = .closing .square) :
    ReadsAs (sliceItem (expression d))
      ((∀ i ∈ lower, i.levels ≤ d) ∧ (∀ i ∈ upper, i.levels ≤ d) ∧ ∀ i ∈ step, i.levels ≤ d)
      (Format.sliceFaces (lower.map Item.faces) (upper.map Item.faces) (step.map Item.faces)) rest
      (.slice () (lower.map Item.value) (upper.map Item.value) (step.map Item.value)) := by
  rw [sliceItem_eq]
  refine reads_peek_bind fun token _ => ?_
  cases lower with
  | none =>
    apply reads_check_pos rfl
    have hbounds := reads_sliceBounds (d := d) none rfl hupper hstep token.pos hrest
    exact hbounds.congr (and_iff_right forall_mem_none).symm
  | some i =>
    have hi : i.Sound := hlower i rfl
    have hfaces : Format.sliceFaces ((some i).map Item.faces) (upper.map Item.faces)
      (step.map Item.faces) =
        i.faces ++ Format.sliceFaces none (upper.map Item.faces) (step.map Item.faces) := by
      simp [Format.sliceFaces]
    rw [hfaces]
    apply reads_check_neg
    · rw [List.append_assoc, front_eq hi.starts]
      exact front_ne hi.starts rfl
    have hreads := hi.reads d
      (Format.sliceFaces none (upper.map Item.faces) (step.map Item.faces) ++ rest)
      (stops_of_kind (.inr (.inl rfl)))
    refine (hreads.bind fun r hr => ?_).congr
      (and_congr_left' levels_le_some)
    apply reads_check_pos rfl
    exact reads_sliceBounds (some r) (congrArg some hr) hupper hstep token.pos hrest

/-- An expression in a subscript, in front of what ends it. -/
theorem reads_sliceItem {i : Item} (hi : i.Sound) (rest : List Face)
    (hrest : (front rest).1 = .comma ∨ (front rest).1 = .closing .square) :
    ReadsAs (sliceItem (expression d)) (i.levels ≤ d) i.faces rest i.value := by
  have hstops : Stops (front rest) := by
    apply stops_of_kind
    rcases hrest with hrest | hrest
    · exact .inl hrest
    · exact .inr (.inr (.inr ⟨_, hrest⟩))
  rw [sliceItem_eq]
  refine reads_peek_bind fun token _ => ?_
  apply reads_check_neg
  · rw [front_eq hi.starts]
    exact front_ne hi.starts rfl
  apply (hi.reads d _ hstops).last
  intro r hr
  apply reads_check_neg
  · rw [List.nil_append]
    rcases hrest with hrest | hrest
    · rw [hrest]
      nofun
    · rw [hrest]
      nofun
  · exact reads_pure hr

/-- One round of the loop over the parts of a subscript. -/
def subscriptStep (expr : Parse MarkedExpr) (x : List MarkedExpr × List Token) :
    Parse (Next (List MarkedExpr × List Token) (List MarkedExpr × List Token)) := do
  let items := x.1 ++ [← sliceItem expr]
  if ← check .comma then
    let commas := x.2 ++ [← advance]
    if ← check (.closing .square) then return .done (items, commas)
    else return .again (items, commas)
  else return .done (items, x.2)

/-- What the parts of a subscript make. -/
def subscriptOf (value : MarkedExpr) (items : List MarkedExpr) (commas : List Token) :
    Parse MarkedExpr := do
  match items, commas with
  | [item], [] =>
    if isSlice item then
      return .subscript (← register .subscript value.mark.pos) value item .load
    else
      let part := .index (← register .index item.mark.pos) item
      return .subscript (← register .subscript value.mark.pos) value part .load
  | items, commas =>
    match items.findIdx? isSlice with
    | some i => unexpected (commas.getD (i - 1) ⟨.comma, ",", {}⟩)
    | none =>
      let pos := (items.head?.map fun e => e.mark.pos).getD value.mark.pos
      let tuple := .tuple (← register .tuple pos) items .load
      let part := .index (← register .index pos) tuple
      return .subscript (← register .subscript value.mark.pos) value part .load

theorem subscript_eq (expr : Parse MarkedExpr) (value : MarkedExpr) :
    subscript expr value = (do
      let _ ← advance
      let p ← iterate (subscriptStep expr) ([], [])
      let _ ← expect (.closing .square)
      subscriptOf value p.1 p.2) := rfl

/-- Some faces are read as the part of a subscript. -/
structure AsPart (n : Nat) (fs : List Face) (part : Expr Unit) : Prop where
  reads : ∀ (d : Nat) (r : MarkedExpr) (rest : List Face),
    ReadsAs (subscript (expression d) r) (n ≤ d) (Format.enclosed .square fs) rest
      (.subscript () r.erase part .load)

theorem AsHead.subscript {m : Nat} {part : Expr Unit} (h : AsHead n fs e)
    (hpart : AsPart m gs part) :
    AsHead (max n (m + 2)) (fs ++ Format.enclosed .square gs) (.subscript () e part .load) := by
  apply h.bracket
  intro d r rest hr
  apply reads_peekKind_bind
  apply (hpart.reads d r rest).last
  intro r' hr'
  exact reads_pure ⟨r', rfl, by rw [hr', hr]⟩

/-- A part of a subscript, from what the loop over its parts reads. -/
theorem asPart_of_loops {part : Expr Unit} {R : List MarkedExpr × List Token → Prop}
    (hloop : ∀ d rest, (front rest).1 = .closing .square →
      Loops IsTooDeep (subscriptStep (expression d)) ([], []) (n ≤ d) fs rest R)
    (hpart : ∀ (r : MarkedExpr) (p : List MarkedExpr × List Token) (rest : List Face), R p →
      ReadsAs (subscriptOf r p.1 p.2) True [] rest (.subscript () r.erase part .load)) :
    AsPart n fs part where
  reads d r rest := by
    rw [subscript_eq, enclosed_eq]
    refine reads_advance_bind (by nofun) fun _ _ => ?_
    have hparts := reads_iterate (hloop d ([TokenKind.face (.closing .square)] ++ rest) rfl)
    refine (hparts.bind (G := True) fun p hp => ?_).congr (and_iff_left trivial)
    refine reads_expect_bind rfl (by nofun) fun _ _ => ?_
    exact hpart r p rest hp

/-- A slice in a subscript. -/
theorem asPart_slice {lower upper step : Option Item} (hlower : ∀ i ∈ lower, i.Sound)
    (hupper : ∀ i ∈ upper, i.Sound) (hstep : ∀ i ∈ step, i.Sound) :
    AsPart (depthOf (lower.toList ++ upper.toList ++ step.toList))
      (Format.sliceFaces (lower.map Item.faces) (upper.map Item.faces) (step.map Item.faces))
      (.slice () (lower.map Item.value) (upper.map Item.value) (step.map Item.value)) := by
  refine asPart_of_loops (R := fun p => ∃ r : MarkedExpr, p = ([r], []) ∧
    r.erase = .slice () (lower.map Item.value) (upper.map Item.value) (step.map Item.value))
    (fun d rest hrest => ?_) ?_
  · apply Loops.done
    have hslice := reads_slice (d := d) hlower hupper hstep hrest
    refine (hslice.last fun r hr => ?_).congr ?_
    · apply reads_check_neg
      · rw [List.nil_append, hrest]
        nofun
      · exact reads_pure ⟨_, rfl, r, rfl, hr⟩
    · rw [depthOf_le_iff]
      simp [or_imp, forall_and]
  · rintro r _ rest ⟨item, rfl, hitem⟩
    have hslice : isSlice item = true := by
      cases item with
      | slice => rfl
      | _ => simp at hitem
    unfold subscriptOf
    simp only [hslice, if_true]
    refine reads_register_bind fun m => reads_pure ?_
    rw [Expr.erase_subscript, hitem]

theorem isSlice_eq_false {r : MarkedExpr} (h : r.erase.tag ≠ .slice) : isSlice r = false := by
  cases r with
  | slice => exact absurd rfl h
  | _ => rfl

/-- An index in a subscript. -/
theorem asPart_index {i : Item} (hi : i.Sound) (htag : i.value.tag ≠ .slice) :
    AsPart i.levels i.faces (.index () i.value) := by
  refine asPart_of_loops (R := fun p => ∃ r : MarkedExpr, p = ([r], []) ∧ r.erase = i.value)
    (fun d rest hrest => ?_) ?_
  · apply Loops.done
    apply (reads_sliceItem hi _ (.inr hrest)).last
    intro r hr
    apply reads_check_neg
    · rw [List.nil_append, hrest]
      nofun
    · exact reads_pure ⟨_, rfl, r, rfl, hr⟩
  · rintro r _ rest ⟨item, rfl, hitem⟩
    have hslice : isSlice item = false := isSlice_eq_false (by rwa [hitem])
    unfold subscriptOf
    simp only [hslice, Bool.false_eq_true, if_false]
    refine reads_register_bind fun m => reads_register_bind fun m' => reads_pure ?_
    rw [Expr.erase_subscript, Expr.erase_index, hitem]

/-- An expression in a subscript with the comma behind it. -/
theorem reads_subscriptStep {i : Item} (hi : i.Sound)
    {x : List MarkedExpr × List Token} {more : Bool}
    (hmore : (front rest).1 = .closing .square ↔ more = false) :
    Reads IsTooDeep (subscriptStep (expression d) x) (i.levels ≤ d)
      (i.faces ++ [TokenKind.face .comma]) rest
      fun r => ∃ y : List MarkedExpr × List Token, r = (if more then .again y else .done y) ∧
        y.1.map Expr.erase = x.1.map Expr.erase ++ [i.value] ∧ y.2 ≠ [] := by
  have hitem := reads_sliceItem (d := d) hi ([TokenKind.face .comma] ++ rest) (.inl rfl)
  refine (hitem.bind (G := True) fun r hr => ?_).congr (and_iff_left trivial)
  apply reads_check_pos rfl
  refine reads_advance_bind (by nofun) fun comma _ => ?_
  apply reads_check_bind
  rw [List.nil_append]
  have hall : (x.1 ++ [r]).map Expr.erase = x.1.map Expr.erase ++ [i.value] := by simp [hr]
  cases more with
  | true =>
    rw [decide_eq_false (by simpa using hmore)]
    exact reads_pure ⟨_, rfl, hall, by simp⟩
  | false =>
    rw [decide_eq_true (hmore.mpr rfl)]
    exact reads_pure ⟨_, rfl, hall, by simp⟩

/-- The elements of a tuple in a subscript are read in a loop. A single one has a comma behind
it. -/
theorem loops_subscriptStep {is : List Item} (his : ∀ i ∈ is, i.Sound) (hsome : is ≠ [])
    (hrest : (front rest).1 = .closing .square) :
    Loops IsTooDeep (subscriptStep (expression d)) ([], []) (∀ i ∈ is, i.levels ≤ d)
      (Format.elementFaces (is.map Item.faces)) rest
      fun p => p.1.map Expr.erase = is.map Item.value ∧ p.2 ≠ [] := by
  obtain ⟨i, is, rfl⟩ := List.exists_cons_of_ne_nil hsome
  cases is with
  | nil =>
    have hi : i.Sound := his i List.mem_cons_self
    have hround := reads_subscriptStep (d := d) (x := ([], [])) hi (iff_of_true hrest rfl)
    apply (Loops.done hround).congr
    rw [List.forall_mem_singleton]
  | cons j is =>
    -- a comma has been read as soon as an element is read
    refine loops_commas Item.faces (fun i => i.levels ≤ d) (I := fun left p =>
      p.1.map Expr.erase ++ left.map Item.value = (i :: j :: is).map Item.value ∧
        (left.length < (i :: j :: is).length → p.2 ≠ [])) hsome
          (fun k hk => (his k hk).ne_nil) ?_ ?_
      ⟨rfl, fun h => absurd h (Nat.lt_irrefl _)⟩
    · rintro k ⟨items, commas⟩ hk ⟨hitems, hcommas⟩
      apply (reads_sliceItem (his k hk) _ (.inr hrest)).last
      intro r hr
      apply reads_check_neg
      · rw [List.nil_append, hrest]
        nofun
      · refine reads_pure ⟨_, rfl, ?_, hcommas (by simp)⟩
        rw [← hitems]
        simp [hr]
    · rintro k l left ⟨items, commas⟩ gs hk hl ⟨hitems, -⟩ hgs
      have hmore : (front gs).1 = .closing .square ↔ true = false := by
        rw [hgs]
        exact iff_of_false (front_ne (his l hl).starts rfl) (by nofun)
      apply (reads_subscriptStep (his k hk) hmore).imp
      rintro _ ⟨y, rfl, hy, hcommas⟩
      refine ⟨y, rfl, ?_, fun _ => hcommas⟩
      rw [hy, ← hitems]
      simp

/-- The elements of a tuple in a subscript. -/
theorem asPart_tuple {is : List Item} (his : ∀ i ∈ is, i.Sound)
    (htag : ∀ i ∈ is, i.value.tag ≠ .slice)
    (hsome : is ≠ []) :
    AsPart (depthOf is) (Format.elementFaces (is.map Item.faces))
      (.index () (.tuple () (is.map Item.value) .load)) := by
  refine asPart_of_loops (fun d rest hrest => (loops_subscriptStep his hsome hrest).congr
    depthOf_le_iff.symm) ?_
  rintro r ⟨items, commas⟩ rest ⟨hitems, hcommas⟩
  have hnone : items.findIdx? isSlice = none := by
    rw [List.findIdx?_eq_none_iff]
    intro item hitem
    have hmem : item.erase ∈ is.map Item.value := by
      rw [← hitems]
      exact List.mem_map_of_mem hitem
    obtain ⟨i, hi, hvalue⟩ := List.mem_map.mp hmem
    exact isSlice_eq_false (by rw [← hvalue]; exact htag i hi)
  obtain ⟨comma, commas, rfl⟩ := List.exists_cons_of_ne_nil hcommas
  unfold subscriptOf
  simp only [hnone]
  refine reads_register_bind fun m => reads_register_bind fun m' =>
    reads_register_bind fun m'' => ?_
  apply reads_pure
  rw [Expr.erase_subscript, Expr.erase_index, Expr.erase_tuple, hitems]

/-! ## Operators in front of an operand -/

theorem unary?_unaryFace (op : UnaryOp) : unary? (Format.unaryFace op).1 = some op := by
  cases op <;> rfl

theorem AsOperand.unary (h : AsOperand n fs e) (op : UnaryOp) :
    AsOperand (n + 1) (Format.unaryFace op :: fs) (.unaryOp () op e) where
  starts := by cases op <;> rfl
  deep := Nat.le_succ_of_le h.deep
  reads d rest hcloses := by
    cases d with
    | zero =>
      have hdeep := h.deep
      exact reads_tooDeep (by omega)
    | succ d =>
      refine reads_peek_bind fun token htoken => ?_
      have hop : unary? token.kind = some op := by
        rw [← unary?_unaryFace op]
        exact congrArg unary? (congrArg Prod.fst htoken)
      simp only [hop]
      refine reads_advance_bind (by cases op <;> nofun) fun _ _ => ?_
      have hoperand := (h.reads d _ hcloses).congr (G := n + 1 ≤ d + 1 + 1) (by omega)
      apply hoperand.last
      intro r hr
      refine reads_register_bind fun m => reads_pure ?_
      rw [Expr.erase_unaryOp, hr]

/-! ## Parameters and lambdas -/

/-- A parameter of a function. -/
inductive ParameterItem where
  | plain (name : String)
  | default (name : String) (value : Item)
  /-- The parameter that takes the surplus of the positional arguments. -/
  | vararg (name : String)
  /-- The parameter that takes the surplus of the keyword arguments. -/
  | kwarg (name : String)

namespace ParameterItem

/-- The faces of a parameter. -/
def faces : ParameterItem → List Face
  | plain name => [Format.nameFace name]
  | default name value => Format.nameFace name :: TokenKind.face .assign :: value.faces
  | vararg name => [TokenKind.face (.binary .mult), Format.nameFace name]
  | kwarg name => [TokenKind.face (.binary .pow), Format.nameFace name]

/-- The default of a parameter, if it has one. -/
def value? : ParameterItem → Option Item
  | default _ value => some value
  | _ => none

/-- The parameters with one more. -/
def push (s : Signature Unit (Expr Unit)) : ParameterItem → Signature Unit (Expr Unit)
  | plain name => { s with params := s.params ++ [⟨(), name⟩] }
  | default name value =>
    { s with params := s.params ++ [⟨(), name⟩], defaults := s.defaults ++ [value.value] }
  | vararg name => { s with vararg := some ⟨(), name⟩ }
  | kwarg name => { s with kwarg := some ⟨(), name⟩ }

/-- A parameter may follow others: no plain one follows one with a default or stars. -/
def Follows (s : Signature Unit (Expr Unit)) : ParameterItem → Prop
  | plain _ => s.defaults = [] ∧ s.vararg = none ∧ s.kwarg = none
  | default .. => s.vararg = none ∧ s.kwarg = none
  | vararg _ => s.vararg = none ∧ s.kwarg = none
  | kwarg _ => s.kwarg = none

/-- All of some parameters may follow others. -/
def AllFollow : Signature Unit (Expr Unit) → List ParameterItem → Prop
  | _, [] => True
  | s, p :: ps => Follows s p ∧ AllFollow (push s p) ps

theorem faces_ne_nil (p : ParameterItem) : p.faces ≠ [] := by
  cases p <;> nofun

end ParameterItem

/-- A name in front of which nothing stands is a parameter. -/
def parameterName : Parse (Param Mark) := do
  let name ← expect .identifier
  return ⟨← register .arg name.pos, name.value⟩

/-- One parameter is read. -/
def parameterItem (expr : Parse MarkedExpr) (s : Signature Mark MarkedExpr) :
    Parse (Signature Mark MarkedExpr) := do
  let token ← peek
  match token.kind, s.vararg, s.kwarg with
  | .binary .mult, none, none => do
    let _ ← advance
    let p ← parameterName
    return { s with vararg := some p }
  | .binary .pow, _, none => do
    let _ ← advance
    let p ← parameterName
    return { s with kwarg := some p }
  | .identifier, none, none => do
    let p ← parameterName
    let s := { s with params := s.params ++ [p] }
    if ← accept .assign then
      let default ← expr
      return { s with defaults := s.defaults ++ [default] }
    else if s.defaults.isEmpty then return s
    else throw (Fault.placed .argumentOrder token .defaultOrder)
  | _, _, _ => unexpected token

theorem parameters_eq (expr : Parse MarkedExpr) (stop : TokenKind) :
    parameters expr stop = iterate (listStep stop (parameterItem expr)) {} := by
  have hstep (s : Signature Mark MarkedExpr) : listStep stop (parameterItem expr) s = do
      if ← check stop then return .done s
      let s ← parameterItem expr s
      if ← accept .comma then return .again s else return .done s := rfl
  unfold parameters
  congr 1
  funext s
  rw [hstep]
  congr 1
  funext found
  cases found with
  | true => rfl
  | false =>
    simp only [Bool.false_eq_true, if_false]
    unfold parameterItem parameterName
    refine Eq.trans ?_ (bind_assoc peek _ _).symm
    congr 1
    funext token
    split
    · next hkind hvararg hkwarg => simp only [hkind, hvararg, hkwarg, bind_assoc, pure_bind]
    · next hkind hkwarg => simp only [hkind, hkwarg, bind_assoc, pure_bind]
    · next hkind hvararg hkwarg =>
      simp only [hkind, hvararg, hkwarg, bind_assoc, pure_bind]
      congr 1
      funext name
      congr 1
      funext m
      congr 1
      funext found
      cases found with
      | true => simp only [if_true, bind_assoc, pure_bind]
      | false =>
        simp only [Bool.false_eq_true, if_false]
        split
        · simp only [pure_bind]
        · rfl
    · next hpow hmult hname =>
      -- the cases of the other side are still to be told apart, unless both sides share them
      first
        | rfl
        | split
          · next hkind hvararg hkwarg => exact absurd hkwarg (hmult hkind hvararg)
          · next hkind hkwarg => exact absurd hkwarg (hpow hkind)
          · next hkind hvararg hkwarg => exact absurd hkwarg (hname hkind hvararg)
          · rfl

theorem reads_parameterName (name : String) :
    Reads bad parameterName True [Format.nameFace name] rest fun p => p.erase = ⟨(), name⟩ := by
  refine reads_expect_bind rfl (by nofun) fun token htoken => ?_
  refine reads_register_bind fun m => reads_pure ?_
  have hvalue : token.value = name := congrArg Prod.snd htoken
  rw [hvalue]
  rfl

/-- One parameter, in front of what may stand behind it. -/
theorem reads_parameterItem {p : ParameterItem} {s : Signature Mark MarkedExpr}
    (hp : ∀ i ∈ p.value?, i.Sound) (hs : p.Follows s.erase)
    (hrest : (front rest).1 = .comma ∨ (front rest).1 = .colon ∨ (front rest).1 = .closing .paren) :
    Reads IsTooDeep (parameterItem (expression d) s) (∀ i ∈ p.value?, i.levels ≤ d) p.faces rest
      fun s' => s'.erase = p.push s.erase := by
  have hnone {o : Option (Param Mark)} (h : o.map Param.erase = none) :
    o = none := Option.map_eq_none_iff.mp h
  have hassign : (front rest).1 ≠ .assign := by
    rcases hrest with hrest | hrest | hrest
    all_goals
      rw [hrest]
      nofun
  refine reads_peek_bind fun token htoken => ?_
  have hkind : token.kind = (front (p.faces ++ rest)).1 := congrArg Prod.fst htoken
  cases p with
  | plain name =>
    obtain ⟨hdefaults, hvararg, hkwarg⟩ := hs
    have hkind : token.kind = .identifier := hkind
    refine Reads.congr (F := True) ?_ (iff_of_true trivial forall_mem_none)
    simp only [hkind, hnone hvararg, hnone hkwarg]
    apply (reads_parameterName name).last
    intro p hp
    refine reads_accept_neg hassign ?_
    have hempty : s.defaults = [] := List.map_eq_nil_iff.mp hdefaults
    simp only [hempty, List.isEmpty_nil, if_true]
    apply reads_pure
    simp [Signature.erase, ParameterItem.push, hp, hempty, hnone hvararg, hnone hkwarg]
  | default name i =>
    obtain ⟨hvararg, hkwarg⟩ := hs
    have hkind : token.kind = .identifier := hkind
    have hi : i.Sound := hp i rfl
    simp only [hkind, hnone hvararg, hnone hkwarg]
    have hstops : Stops (front rest) := by
      apply stops_of_kind
      rcases hrest with hrest | hrest | hrest
      · exact .inl hrest
      · exact .inr (.inl hrest)
      · exact .inr (.inr (.inr ⟨_, hrest⟩))
    refine Reads.next (reads_parameterName name) fun p hp => ?_
    refine reads_accept_pos rfl (by simp) ?_
    have hvalue := (hi.reads d _ hstops).congr levels_le_some
    apply hvalue.last
    intro r hr
    apply reads_pure
    simp [Signature.erase, ParameterItem.push, hp, hr, hnone hvararg, hnone hkwarg]
  | vararg name =>
    obtain ⟨hvararg, hkwarg⟩ := hs
    have hkind : token.kind = .binary .mult := hkind
    refine Reads.congr (F := True) ?_ (iff_of_true trivial forall_mem_none)
    simp only [hkind, hnone hvararg, hnone hkwarg]
    refine reads_advance_bind (fun h => TokenKind.noConfusion h) fun _ _ => ?_
    apply (reads_parameterName name).last
    intro p hp
    apply reads_pure
    simp [Signature.erase, ParameterItem.push, hp, hnone hkwarg]
  | kwarg name =>
    have hkind : token.kind = .binary .pow := hkind
    refine Reads.congr (F := True) ?_ (iff_of_true trivial forall_mem_none)
    simp only [hkind, hnone hs]
    refine reads_advance_bind (fun h => TokenKind.noConfusion h) fun _ _ => ?_
    apply (reads_parameterName name).last
    intro p hp
    apply reads_pure
    simp [Signature.erase, ParameterItem.push, hp]

/-- **The parameters of a function.** -/
theorem reads_parameters {stop : TokenKind} {ps : List ParameterItem}
    (hstop : stop = .colon ∨ stop = .closing .paren)
    (hps : ∀ p ∈ ps, ∀ i ∈ p.value?, i.Sound) (hfollow : ParameterItem.AllFollow {} ps)
    (rest : List Face)
    (hrest : (front rest).1 = stop) :
    Reads IsTooDeep (parameters (expression d) stop)
      (depthOf (ps.filterMap ParameterItem.value?) ≤ d)
      (Format.commaFaces (ps.map ParameterItem.faces)) rest
      fun s => s.erase = ps.foldl ParameterItem.push {} := by
  rw [parameters_eq]
  have hfits : (∀ p ∈ ps, ∀ i ∈ p.value?, i.levels ≤ d) ↔
      depthOf (ps.filterMap ParameterItem.value?) ≤ d := by
    rw [depthOf_le_iff]
    simp only [List.mem_filterMap]
    constructor
    · rintro h i ⟨p, hp, hi⟩
      exact h p hp i hi
    · intro h p hp i hi
      exact h i ⟨p, hp, hi⟩
  let Left (left : List ParameterItem) (s : Signature Mark MarkedExpr) : Prop :=
    ParameterItem.AllFollow s.erase left ∧
      left.foldl ParameterItem.push s.erase = ps.foldl ParameterItem.push {}
  suffices hlist : Reads IsTooDeep (iterate (listStep stop (parameterItem (expression d))) {})
      (∀ p ∈ ps, ∀ i ∈ p.value?, i.levels ≤ d) (Format.commaFaces (ps.map ParameterItem.faces)) rest
        (Left []) from
    (hlist.imp fun s hs => hs.2).congr hfits
  refine reads_list ParameterItem.faces _ hrest ?_ (I := Left) ?_ ?_ ⟨hfollow, rfl⟩
  · rcases hstop with rfl | rfl <;> nofun
  · intro p hp
    refine ⟨?_, p.faces_ne_nil⟩
    rcases hstop with rfl | rfl <;> cases p <;> nofun
  · rintro p left s gs hp ⟨⟨hfollows, hleft⟩, heq⟩ hgs
    have hbehind : (front gs).1 = .comma ∨ (front gs).1 = .colon ∨
        (front gs).1 = .closing .paren := by
      rcases hgs with hgs | hgs
      · exact .inl hgs
      · right
        rwa [hgs, hrest]
    apply (reads_parameterItem (hps p hp) hfollows hbehind).imp
    intro s' hs'
    show ParameterItem.AllFollow s'.erase left ∧ _
    rw [hs']
    exact ⟨hleft, heq⟩

/-- A lambda. -/
theorem asExpression_lambda {ps : List ParameterItem} {body : Item}
    (hps : ∀ p ∈ ps, ∀ i ∈ p.value?, i.Sound) (hfollow : ParameterItem.AllFollow {} ps)
    (hbody : body.Sound) :
    AsExpression (max (depthOf (ps.filterMap ParameterItem.value?)) body.levels + 2)
      (TokenKind.face (.keyword .lambda) :: Format.commaFaces (ps.map ParameterItem.faces) ++
        TokenKind.face .colon :: body.faces)
      (.lambda () (ps.foldl ParameterItem.push {}) body.value) where
  starts := rfl
  deep := Nat.le_add_left 2 _
  reads d rest hstops := by
    rcases d with _ | _ | d
    · exact reads_tooDeep (by omega)
    · refine reads_peek_bind fun first _ => ?_
      -- an operand needs some depth, too
      refine Reads.last (R := fun _ => False) (reads_tooDeep (by omega)) nofun
    refine reads_peek_bind fun first _ => ?_
    have hoperand : ReadsAs (operand (d + 1))
      (max (depthOf (ps.filterMap ParameterItem.value?)) body.levels + 2 ≤ d + 1 + 1)
        (TokenKind.face (.keyword .lambda) :: Format.commaFaces (ps.map ParameterItem.faces) ++
          TokenKind.face .colon :: body.faces) rest
            (.lambda () (ps.foldl ParameterItem.push {}) body.value) := by
      refine reads_peek_bind fun token htoken => ?_
      have hkind : token.kind = .keyword .lambda := congrArg Prod.fst htoken
      simp only [hkind, unary?]
      refine reads_advance_bind (by nofun) fun word _ => ?_
      have hparameters := reads_parameters (d := d) (.inl rfl) hps hfollow
        (TokenKind.face .colon :: body.faces ++ rest) rfl
      refine (hparameters.bind (G := body.levels ≤ d) fun s hs => ?_).congr ?_
      · refine reads_expect_bind rfl (by nofun) fun _ _ => ?_
        apply (hbody.reads d _ hstops).last
        intro r hr
        refine reads_register_bind fun m => reads_pure ?_
        rw [Expr.erase_lambda, hs, hr]
      · omega
    apply hoperand.last
    intro r hr
    rw [operators_eq]
    exact reads_iterate (loops_operatorStep hstops.2 hr)

end Parse

end Toolchain
