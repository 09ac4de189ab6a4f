import Toolchain.Parser.Block
import Toolchain.Proofs.Parser.Phrases

/-!
# What the rules for statements read

The tokens of each simple statement, and what the parser makes of them. In most places a statement
may have several expressions with commas between them, which are a tuple without parentheses. Where
something is assigned to or deleted, the parser has read an expression before it makes a place of
it, so a place stands here together with that expression.

## Main definitions

* `Parse.AsList`: an expression, or the elements of a tuple without parentheses
* `Parse.AsSimple`: the tokens of a simple statement without the end of its line
* `Parse.PlaceItem`: a place with the tokens of its expression
* `Parse.AliasItem`, `Parse.ImportedFaces`: what is imported

## Main results

* `Parse.AsExpression.list`, `Parse.asList_tuple`: the two cases of such a list
* the lemmas `Parse.asSimple_*`: **the tokens of each simple statement are read as that statement**
* `Parse.runs_singleExpression`: a text that is one expression
-/

namespace Toolchain

namespace Parse

variable {bad : Fault → Prop} {F G : Prop} {fs gs rest : List Face} {e : Expr Unit} {n m d : Nat}

/-! ## Expressions with commas between them -/

/-- An expression, or the elements of a tuple without parentheses. -/
structure AsList (n : Nat) (fs : List Face) (e : Expr Unit) : Prop where
  starts : startsExpr (front fs).1 = true
  reads : ∀ (d : Nat) (rest : List Face), Stops (front rest) → (front rest).1 ≠ .comma →
    ReadsAs (exprList (expression d)) (n ≤ d) fs rest e

/-- One round of the loop over the elements of a tuple. -/
def tupleStep (expr : Parse MarkedExpr) (elts : List MarkedExpr) :
    Parse (Next (List MarkedExpr) (List MarkedExpr)) := do
  if ← accept .comma then
    if startsExpr (← peekKind) then
      let e ← expr
      return .again (e :: elts)
    else return .done elts
  else return .done elts

theorem exprList_eq (expr : Parse MarkedExpr) :
    exprList expr = do
      let first ← peek
      let head ← expr
      if ← check .comma then
        let elts ← iterate (tupleStep expr) [head]
        return .tuple (← register .tuple first.pos) elts.reverse .load
      else return head := rfl

theorem AsExpression.list (h : AsExpression n fs e) : AsList n fs e where
  starts := h.starts
  reads d rest hstops hcomma := by
    rw [exprList_eq]
    refine reads_peek_bind fun first _ => ?_
    apply (h.reads d _ hstops).last
    intro r hr
    apply reads_check_neg
    · rwa [List.nil_append]
    · exact reads_pure hr

/-- The faces of what follows the first of some things with commas between them. -/
def furtherFaces (is : List Item) : List Face :=
  is.flatMap fun i => TokenKind.face .comma :: i.faces

theorem commaFaces_eq (i : Item) (is : List Item) :
    Format.commaFaces ((i :: is).map Item.faces) = i.faces ++ furtherFaces is := by
  induction is generalizing i with
  | nil =>
    rw [List.map_singleton, Format.commaFaces_singleton]
    exact (List.append_nil _).symm
  | cons j is ih =>
    rw [List.map_cons, List.map_cons, Format.commaFaces_cons_cons, ← List.map_cons, ih]
    simp [furtherFaces]

theorem loops_tupleStep (elts : List MarkedExpr) {is : List Item} (his : ∀ i ∈ is, i.Sound)
    (hstops : Stops (front rest)) (hcomma : (front rest).1 ≠ .comma) :
    Loops IsTooDeep (tupleStep (expression d)) elts (∀ i ∈ is, i.levels ≤ d) (furtherFaces is) rest
      fun r => r.reverse.map Expr.erase = elts.reverse.map Expr.erase ++ is.map Item.value := by
  induction is generalizing elts with
  | nil =>
    have hdone : Loops IsTooDeep (tupleStep (expression d)) elts True [] rest
        fun r => r.reverse.map Expr.erase = elts.reverse.map Expr.erase ++ [] := by
      apply Loops.done
      apply reads_accept_neg
      · rwa [List.nil_append]
      · exact reads_pure ⟨elts, rfl, (List.append_nil _).symm⟩
    apply hdone.congr
    simp
  | cons i is ih =>
    obtain ⟨hi, his⟩ := List.forall_mem_cons.mp his
    have hstops' : Stops (front (furtherFaces is ++ rest)) := by
      cases is with
      | nil => exact hstops
      | cons j is => exact stops_of_kind (.inl rfl)
    have hstep : Reads IsTooDeep (tupleStep (expression d) elts) (i.levels ≤ d)
        (TokenKind.face .comma :: i.faces) (furtherFaces is ++ rest)
        fun r => ∃ elts', r = .again elts' ∧ ∃ e : MarkedExpr, elts' = e :: elts ∧
          e.erase = i.value := by
      refine reads_accept_pos rfl (by nofun) ?_
      simp only [if_true]
      apply reads_peekKind_bind
      rw [front_eq hi.starts, if_pos hi.starts]
      apply (hi.reads d _ hstops').last
      intro e he
      exact reads_pure ⟨_, rfl, e, rfl, he⟩
    refine (Loops.again hstep (by simp) (G := ∀ i ∈ is, i.levels ≤ d) ?_).congr ?_
    · rintro elts' ⟨e, rfl, he⟩
      have hnext := ih (e :: elts) his
      simpa [he] using hnext
    · rw [List.forall_mem_cons]

/-- The elements of a tuple, of which there are several. -/
theorem asList_tuple {is : List Item} (his : ∀ i ∈ is, i.Sound) (hlength : 2 ≤ is.length) :
    AsList (depthOf is) (Format.commaFaces (is.map Item.faces))
      (.tuple () (is.map Item.value) .load) := by
  obtain ⟨i, is, rfl⟩ : ∃ i is', is = i :: is' := List.exists_cons_of_length_pos (by omega)
  obtain ⟨j, is, rfl⟩ :
    ∃ j is', is = j :: is' :=
      List.exists_cons_of_length_pos (Nat.lt_of_succ_le (Nat.le_of_succ_le_succ hlength))
  obtain ⟨hi, his⟩ := List.forall_mem_cons.mp his
  rw [commaFaces_eq]
  constructor
  · rw [front_eq hi.starts]
    exact hi.starts
  · intro d rest hstops hcomma
    rw [exprList_eq]
    refine reads_peek_bind fun first _ => ?_
    have hfirst := hi.reads d (furtherFaces (j :: is) ++ rest) (stops_of_kind (.inl rfl))
    refine (hfirst.bind (G := ∀ i ∈ j :: is, i.levels ≤ d) fun r hr => ?_).congr ?_
    · refine reads_check_pos rfl ?_
      have hloop := loops_tupleStep (d := d) [r] his hstops hcomma
      apply (reads_iterate hloop).last
      intro elts helts
      refine reads_register_bind fun m => reads_pure ?_
      rw [Expr.erase_tuple, helts]
      simp [hr]
    · rw [depthOf_le_iff, List.forall_mem_cons (a := i)]

/-! ## Simple statements -/

/-- The newline that ends a line of the program. -/
def newLineFace : Face := TokenKind.face .newLine

theorem stops_newLine : Stops newLineFace := ⟨⟨nofun, nofun, nofun, nofun⟩, rfl⟩

theorem stops_keyword {k : Keyword} (h : beginsInfix (.keyword k) = false) :
    Stops (TokenKind.face (.keyword k)) :=
  ⟨⟨nofun, nofun, nofun, nofun⟩, h⟩

/-- Whether a simple statement begins with a token. -/
def startsSimple : TokenKind → Bool
  | .keyword .pass | .keyword .break | .keyword .continue | .keyword .return | .keyword .del
  | .keyword .raise | .keyword .assert | .keyword .imports | .keyword .from => true
  | k => startsExpr k

/-- The rule for a simple statement, which is told by its first token. -/
def sentence (token : Token) : Parse MarkedStmt :=
  match token.kind with
  | .keyword .pass => wordStatement .pass .pass
  | .keyword .break => wordStatement .breakLoop .breakLoop
  | .keyword .continue => wordStatement .continueLoop .continueLoop
  | .keyword .return => returnStatement
  | .keyword .del => deleteStatement
  | .keyword .raise => raiseStatement
  | .keyword .assert => assertStatement
  | .keyword .imports => importStatement
  | .keyword .from => importFromStatement
  | kind => if startsExpr kind then exprStatement else unexpected token

theorem simpleStatement_eq :
    simpleStatement = do
      let token ← peek
      let s ← sentence token
      return (s, ← endStatement) := by
  unfold simpleStatement sentence
  congr 1
  funext token
  obtain ⟨kind, value, pos⟩ := token
  cases kind with
  | keyword k => cases k <;> rfl
  | binary op => cases op <;> rfl
  | _ => rfl

/-- The tokens of a simple statement, and the depth that its expressions need. -/
structure AsSimple (n : Nat) (fs : List Face) (s : Stmt Unit) : Prop where
  starts : startsSimple (front fs).1 = true
  reads : ∀ rest : List Face,
    Reads IsTooDeep simpleStatement (n ≤ maxDepth) (fs ++ [newLineFace]) rest
    fun r => r.1.erase = s ∧ r.2 = false

theorem reads_endStatement :
    Reads bad endStatement True [newLineFace] rest fun more => more = false := by
  refine reads_peek_bind fun token htoken => ?_
  have hkind : token.kind = .newLine := congrArg Prod.fst htoken
  simp only [hkind]
  exact reads_advance_bind (by nofun) fun _ _ => reads_pure rfl

theorem asSimple_of {s : Stmt Unit} {p : Parse MarkedStmt}
    (hstarts : startsSimple (front fs).1 = true)
    (hrule : ∀ t : Token, t.kind = (front fs).1 → sentence t = p)
    (h : ∀ rest, front rest = newLineFace →
      Reads IsTooDeep p (n ≤ maxDepth) fs rest fun r => r.erase = s) : AsSimple n fs s where
  starts := hstarts
  reads rest := by
    have hsome : fs ≠ [] := by
      rintro rfl
      cases hstarts
    rw [simpleStatement_eq]
    refine reads_peek_bind fun token htoken => ?_
    have hkind : token.kind = (front fs).1 := by
      have hface : token.kind = (front (fs ++ [newLineFace] ++ rest)).1 := congrArg Prod.fst htoken
      rwa [List.append_assoc, front_append hsome] at hface
    rw [hrule token hkind]
    refine ((h ([newLineFace] ++ rest) rfl).bind (G := True) fun r hr => ?_).congr
      (and_iff_left trivial)
    apply reads_endStatement.last
    intro more hmore
    exact reads_pure ⟨hr, hmore⟩

/-- A statement that is nothing but a word. -/
theorem asSimple_word (tag : NodeTag) (make : Mark → MarkedStmt) {k : Keyword} {s : Stmt Unit}
    (hstarts : startsSimple (.keyword k) = true)
    (hrule : ∀ t : Token, t.kind = .keyword k → sentence t = wordStatement tag make)
    (hmake : ∀ m, (make m).erase = s) : AsSimple 0 [TokenKind.face (.keyword k)] s := by
  refine asSimple_of hstarts hrule fun rest _ => ?_
  refine reads_advance_bind (by nofun) fun word _ => ?_
  refine reads_register_bind fun m => ?_
  refine Reads.congr (F := True) ?_ (iff_of_true trivial (Nat.zero_le _))
  exact reads_pure (hmake m)

theorem asSimple_pass : AsSimple 0 [TokenKind.face (.keyword .pass)] (.pass ()) := by
  apply asSimple_word .pass .pass rfl
  · intro t ht
    rw [sentence, ht]
  · exact fun m => rfl

theorem asSimple_break : AsSimple 0 [TokenKind.face (.keyword .break)] (.breakLoop ()) := by
  apply asSimple_word .breakLoop .breakLoop rfl
  · intro t ht
    rw [sentence, ht]
  · exact fun m => rfl

theorem asSimple_continue :
    AsSimple 0 [TokenKind.face (.keyword .continue)] (.continueLoop ()) := by
  apply asSimple_word .continueLoop .continueLoop rfl
  · intro t ht
    rw [sentence, ht]
  · exact fun m => rfl

theorem asSimple_return_none : AsSimple 0 [TokenKind.face (.keyword .return)] (.ret () none) := by
  refine asSimple_of (p := returnStatement) rfl (fun t ht => by rw [sentence, ht]; rfl)
    fun rest hrest => ?_
  refine reads_advance_bind (by nofun) fun word _ => ?_
  have hnone : Reads IsTooDeep (expr? anyExprList) True [] rest fun r => r = none := by
    apply reads_peekKind_bind
    rw [List.nil_append, hrest]
    exact reads_pure rfl
  refine (hnone.last ?_).congr (iff_of_true trivial (Nat.zero_le _))
  rintro _ rfl
  exact reads_register_bind fun m => reads_pure rfl

theorem asSimple_return (h : AsList n fs e) :
    AsSimple n (TokenKind.face (.keyword .return) :: fs) (.ret () (some e)) := by
  refine asSimple_of (p := returnStatement) rfl (fun t ht => by rw [sentence, ht]; rfl)
    fun rest hrest => ?_
  refine reads_advance_bind (by nofun) fun word _ => ?_
  have hsome : Reads IsTooDeep (expr? anyExprList) (n ≤ maxDepth) fs rest fun r => r.map
      Expr.erase = some e := by
    apply reads_peekKind_bind
    rw [front_eq h.starts, if_pos h.starts]
    have hstops : Stops (front rest) := by
      rw [hrest]
      exact stops_newLine
    apply (h.reads maxDepth _ hstops (by rw [hrest]; nofun)).last
    intro r hr
    exact reads_pure (congrArg some hr)
  apply hsome.last
  intro r hr
  refine reads_register_bind fun m => reads_pure ?_
  rw [Stmt.erase_ret, hr]

theorem startsSimple_of_startsExpr {k : TokenKind} (h : startsExpr k = true) :
    startsSimple k = true := by
  unfold startsSimple
  split <;> first | rfl | exact h

theorem sentence_of_startsExpr {t : Token} (h : startsExpr t.kind = true) :
    sentence t = exprStatement := by
  unfold sentence
  split
  case h_10 => rw [if_pos h]
  all_goals
    next hkind =>
    rw [hkind] at h
    cases h

/-- An expression as a statement. -/
theorem asSimple_expr (h : AsList n fs e) : AsSimple n fs (.expr () e) := by
  refine asSimple_of (p := exprStatement) (startsSimple_of_startsExpr h.starts)
    (fun t ht => sentence_of_startsExpr (ht ▸ h.starts)) fun rest hrest => ?_
  refine reads_peek_bind fun first _ => ?_
  have hstops : Stops (front rest) := by
    rw [hrest]
    exact stops_newLine
  apply (h.reads maxDepth _ hstops (by rw [hrest]; nofun)).last
  intro r hr
  apply reads_peekKind_bind
  rw [List.nil_append, hrest]
  refine reads_register_bind fun m => reads_pure ?_
  rw [Stmt.erase_expr, hr]

/-- An expression after a mark, if the mark is there. -/
def markedExpr (mark : TokenKind) : Parse (Option MarkedExpr) := do
  if ← accept mark then some <$> anyExpr else pure none

/-- The faces of an expression after a mark, if there is one. -/
def markedFaces (mark : TokenKind) (o : Option Item) : List Face :=
  o.elim [] fun i => TokenKind.face mark :: i.faces

theorem reads_markedExpr {mark : TokenKind} {o : Option Item} (ho : ∀ i ∈ o, i.Sound)
    (hmark : mark ≠ .finish)
    (hrest : front rest = newLineFace) (hnewLine : mark ≠ .newLine) :
    Reads IsTooDeep (markedExpr mark) (∀ i ∈ o, i.levels ≤ maxDepth) (markedFaces mark o) rest
      fun r => r.map Expr.erase = o.map Item.value := by
  cases o with
  | none =>
    refine Reads.congr (F := True) ?_ (by simp)
    apply reads_accept_neg
    · rw [markedFaces, Option.elim_none, List.nil_append, hrest]
      exact hnewLine.symm
    · exact reads_pure rfl
  | some i =>
    have hstops : Stops (front rest) := by
      rw [hrest]
      exact stops_newLine
    refine reads_accept_pos rfl hmark ?_
    simp only [if_true]
    have hvalue := ((ho i rfl).reads maxDepth _ hstops).congr levels_le_some
    apply hvalue.map
    intro r hr
    exact congrArg some hr

theorem stops_marked {mark : TokenKind} {o : Option Item} (hmark : Stops mark.face)
    (hrest : front rest = newLineFace) : Stops (front (markedFaces mark o ++ rest)) := by
  cases o with
  | none =>
    rw [markedFaces, Option.elim_none, List.nil_append, hrest]
    exact stops_newLine
  | some i => exact hmark

theorem assertStatement_eq :
    assertStatement = do
      let word ← advance
      let test ← anyExpr
      let msg ← markedExpr .comma
      return .assert (← register .assert word.pos) test msg := by
  unfold assertStatement markedExpr
  simp only [bind_assoc]
  congr! 6
  split <;> rfl

/-- A condition and what is said if it does not hold. -/
theorem asSimple_assert {test : Item} {msg : Option Item} (htest : test.Sound)
    (hmsg : ∀ i ∈ msg, i.Sound) :
    AsSimple (depthOf (test :: msg.toList))
      (TokenKind.face (.keyword .assert) :: test.faces ++ markedFaces .comma msg)
      (.assert () test.value (msg.map Item.value)) := by
  refine asSimple_of (p := assertStatement) rfl (fun t ht => by rw [sentence, ht]; rfl)
    fun rest hrest => ?_
  rw [assertStatement_eq]
  refine reads_advance_bind (by nofun) fun word _ => ?_
  have htest := htest.reads maxDepth _ (stops_marked (o := msg) (stops_of_kind (.inl rfl)) hrest)
  refine (htest.bind (G := ∀ i ∈ msg, i.levels ≤ maxDepth) fun r hr => ?_).congr ?_
  · apply (reads_markedExpr hmsg (by nofun) hrest (by nofun)).last
    intro msg' hmsg'
    refine reads_register_bind fun m => reads_pure ?_
    rw [Stmt.erase_assert, hr, hmsg']
  · rw [depthOf_le_iff]
    simp

theorem raiseStatement_eq :
    raiseStatement = do
      let word ← advance
      let exc ← expr? anyExpr
      let cause ← if exc.isSome then markedExpr (.keyword .from) else pure none
      return .raise (← register .raise word.pos) exc cause := by
  unfold raiseStatement markedExpr
  congr! 4
  split
  · simp only [bind_assoc]
    congr! 2
    split <;> rfl
  · rfl

/-- An exception to be raised, and what caused it. -/
theorem asSimple_raise {exc : Item} {cause : Option Item} (hexc : exc.Sound)
    (hcause : ∀ i ∈ cause, i.Sound) :
    AsSimple (depthOf (exc :: cause.toList))
      (TokenKind.face (.keyword .raise) :: exc.faces ++ markedFaces (.keyword .from) cause)
      (.raise () (some exc.value) (cause.map Item.value)) := by
  refine asSimple_of (p := raiseStatement) rfl (fun t ht => by rw [sentence, ht]; rfl)
    fun rest hrest => ?_
  rw [raiseStatement_eq]
  refine reads_advance_bind (by nofun) fun word _ => ?_
  have hstops : Stops (front (markedFaces (.keyword .from) cause ++ rest)) :=
    stops_marked (stops_keyword rfl) hrest
  have hfirst : Reads IsTooDeep (expr? anyExpr) (exc.levels ≤ maxDepth) exc.faces
      (markedFaces (.keyword .from) cause ++ rest) fun r => ∃ e : MarkedExpr, r = some e ∧
        e.erase = exc.value := by
    apply reads_peekKind_bind
    rw [front_eq hexc.starts, if_pos hexc.starts]
    apply (hexc.reads maxDepth _ hstops).last
    intro e he
    exact reads_pure ⟨e, rfl, he⟩
  refine (hfirst.bind (G := ∀ i ∈ cause, i.levels ≤ maxDepth) fun r hr => ?_).congr ?_
  · obtain ⟨e, rfl, he⟩ := hr
    apply (reads_markedExpr hcause (by nofun) hrest (by nofun)).last
    intro cause' hcause'
    refine reads_register_bind fun m => reads_pure ?_
    rw [Stmt.erase_raise, Option.map_some, he, hcause']
  · rw [depthOf_le_iff]
    simp

theorem asSimple_raise_none :
    AsSimple 0 [TokenKind.face (.keyword .raise)] (.raise () none none) := by
  refine asSimple_of (p := raiseStatement) rfl (fun t ht => by rw [sentence, ht]; rfl)
    fun rest hrest => ?_
  refine reads_advance_bind (by nofun) fun word _ => ?_
  have hnone : Reads IsTooDeep (expr? anyExpr) True [] rest fun r => r = none := by
    apply reads_peekKind_bind
    rw [List.nil_append, hrest]
    exact reads_pure rfl
  refine (hnone.last ?_).congr (iff_of_true trivial (Nat.zero_le _))
  rintro _ rfl
  have hend : Reads IsTooDeep
    (do return Stmt.raise (← register .raise word.pos) none none) True [] rest
      fun s => s.erase = .raise () none none := reads_register_bind fun m => reads_pure rfl
  exact hend

/-! ## Places -/

/-- An expression that is a place is made one. -/
theorem reads_target {ctx : Context} (token : Token) {r : MarkedExpr} {t : Expr Unit}
    (h : r.erase.withContext? ctx = some t) :
    Reads bad (target ctx token r) True [] rest fun place => place.erase = t := by
  rw [Expr.withContext?_erase] at h
  obtain ⟨place, hplace, ht⟩ := Option.map_eq_some_iff.mp h
  unfold target
  rw [hplace]
  exact reads_pure ht

/-- The tokens of an expression, and the place that it is made. -/
structure PlaceItem where
  item : Item
  place : Expr Unit

/-- An expression as a place to be deleted. -/
def deletedPlace : Parse MarkedExpr := do
  let token ← peek
  target .del token (← anyExpr)

theorem reads_deletedPlace {p : PlaceItem} (hp : p.item.Sound)
    (hplace : p.item.value.withContext? .del = some p.place)
    (rest : List Face) (hstops : Stops (front rest)) :
    ReadsAs deletedPlace (p.item.levels ≤ maxDepth) p.item.faces rest p.place := by
  refine reads_peek_bind fun token _ => ?_
  apply (hp.reads maxDepth _ hstops).last
  intro r hr
  apply reads_target
  rw [hr, hplace]

/-- One round of the loop over places to be deleted. -/
def deleteStep (targets : List MarkedExpr) : Parse (Next (List MarkedExpr) (List MarkedExpr)) := do
  let targets := targets ++ [← deletedPlace]
  if ← accept .comma then
    if startsExpr (← peekKind) then return .again targets else return .done targets
  else return .done targets

theorem deleteStatement_eq :
    deleteStatement = do
      let word ← advance
      let targets ← iterate deleteStep []
      return .delete (← register .delete word.pos) targets := by
  unfold deleteStatement deleteStep deletedPlace
  simp only [bind_assoc]

/-- Places to be deleted. -/
theorem asSimple_delete {ps : List PlaceItem} (hps : ∀ p ∈ ps, p.item.Sound) (hsome : ps ≠ [])
    (hplaces : ∀ p ∈ ps, p.item.value.withContext? .del = some p.place) :
    AsSimple (depthOf (ps.map PlaceItem.item))
      (TokenKind.face (.keyword .del) :: Format.commaFaces (ps.map fun p => p.item.faces))
      (.delete () (ps.map PlaceItem.place)) := by
  refine asSimple_of (p := deleteStatement) rfl (fun t ht => by rw [sentence, ht]; rfl)
    fun rest hrest => ?_
  rw [deleteStatement_eq]
  refine reads_advance_bind (by nofun) fun word _ => ?_
  suffices hloop : Loops IsTooDeep deleteStep [] (∀ p ∈ ps, p.item.levels ≤ maxDepth)
      (Format.commaFaces (ps.map fun p => p.item.faces)) rest
      fun targets => targets.map Expr.erase = ps.map PlaceItem.place by
    refine ((reads_iterate hloop).last fun targets htargets => ?_).congr ?_
    · refine reads_register_bind fun m => reads_pure ?_
      rw [Stmt.erase_delete, htargets]
    · rw [depthOf_le_iff, List.forall_mem_map]
  refine loops_commas (fun p => p.item.faces) _ (I := fun left (targets : List MarkedExpr) =>
    targets.map Expr.erase ++ left.map PlaceItem.place = ps.map PlaceItem.place) hsome
    (fun p hp => (hps p hp).ne_nil) ?_ ?_ (a := []) rfl
  · intro p targets hp htargets
    have hstops : Stops (front rest) := by
      rw [hrest]
      exact stops_newLine
    apply (reads_deletedPlace (hps p hp) (hplaces p hp) _ hstops).last
    intro place hplace
    apply reads_accept_neg
    · rw [List.nil_append, hrest]
      nofun
    · refine reads_pure ⟨_, rfl, ?_⟩
      rw [List.map_append, List.map_singleton, hplace]
      exact htargets
  · intro p q left targets gs hp hq htargets hgs
    have hplace := reads_deletedPlace (hps p hp) (hplaces p hp) ([TokenKind.face .comma] ++ gs)
      (stops_of_kind (.inl rfl))
    refine (hplace.bind (G := True) fun place hplace => ?_).congr (and_iff_left trivial)
    refine reads_accept_pos rfl (by nofun) ?_
    simp only [if_true]
    apply reads_peekKind_bind
    rw [List.nil_append, hgs, if_pos (hps q hq).starts]
    refine reads_pure ⟨_, rfl, ?_⟩
    rw [← htargets]
    simp [hplace]

/-! ### Assignments -/

/-- Lists of expressions, each after an equals sign. -/
def assignedFaces (is : List Item) : List Face :=
  is.flatMap fun i => TokenKind.face .assign :: i.faces

/-- The state of the loop over what stands between equals signs: what was read before the last one,
and what was read after it. -/
abbrev Assigned := List (Token × MarkedExpr) × Token × MarkedExpr

/-- All that was read. -/
def Assigned.all (x : Assigned) : List (Expr Unit) := x.1.map (fun p => p.2.erase) ++ [x.2.2.erase]

/-- One round of the loop over what stands between equals signs. -/
def assignStep (x : Assigned) : Parse (Next Assigned Assigned) := do
  if ← accept .assign then
    let next ← peek
    let more ← anyExprList
    return .again (x.1 ++ [(x.2.1, x.2.2)], next, more)
  else return .done x

theorem assignment_eq (first : Token) (e : MarkedExpr) :
    assignment first e = do
      let x ← iterate assignStep ([], first, e)
      let places ← x.1.mapM fun p => target .store p.1 p.2
      return .assign (← register .assign first.pos) places x.2.2 := rfl

/-- An item is read as an expression or as the elements of a tuple. -/
abbrev Item.Listed (i : Item) : Prop := AsList i.levels i.faces i.value

theorem loops_assignStep {is : List Item} (his : ∀ i ∈ is, i.Listed)
    (hrest : front rest = newLineFace)
    (x : Assigned) :
    Loops IsTooDeep assignStep x (∀ i ∈ is, i.levels ≤ maxDepth) (assignedFaces is) rest
      fun y => Assigned.all y = x.all ++ is.map Item.value := by
  induction is generalizing x with
  | nil =>
    have hdone : Loops IsTooDeep assignStep x True [] rest fun y => Assigned.all y =
        x.all ++ [] := by
      apply Loops.done
      apply reads_accept_neg
      · rw [List.nil_append, hrest]
        nofun
      · exact reads_pure ⟨x, rfl, (List.append_nil _).symm⟩
    apply hdone.congr
    simp
  | cons i is ih =>
    obtain ⟨hi, his⟩ := List.forall_mem_cons.mp his
    have hbehind : Stops (front (assignedFaces is ++ rest)) ∧
        (front (assignedFaces is ++ rest)).1 ≠ .comma := by
      cases is with
      | nil =>
        show Stops (front rest) ∧ (front rest).1 ≠ .comma
        rw [hrest]
        exact ⟨stops_newLine, by nofun⟩
      | cons j is => exact ⟨stops_of_kind (.inr (.inr (.inl rfl))), by nofun⟩
    have hstep : Reads IsTooDeep (assignStep x) (i.levels ≤ maxDepth)
      (TokenKind.face .assign :: i.faces)
        (assignedFaces is ++ rest) fun r => ∃ y, r = .again y ∧
          Assigned.all y = x.all ++ [i.value] := by
      refine reads_accept_pos rfl (by nofun) ?_
      simp only [if_true]
      refine reads_peek_bind fun next _ => ?_
      apply (hi.reads maxDepth _ hbehind.1 hbehind.2).last
      intro more hmore
      refine reads_pure ⟨_, rfl, ?_⟩
      simp [Assigned.all, hmore]
    refine (Loops.again hstep (by simp) (G := ∀ i ∈ is, i.levels ≤ maxDepth) fun y hy => ?_).congr
      ?_
    · have hnext := ih his y
      rw [hy] at hnext
      simpa using hnext
    · rw [List.forall_mem_cons]

theorem reads_targets (ps : List (Token × MarkedExpr)) (ts : List (Expr Unit))
    (h : ps.map (fun p => p.2.erase.withContext? .store) = ts.map some) :
    Reads bad (ps.mapM fun p => target .store p.1 p.2) True [] rest fun places => places.map
      Expr.erase = ts := by
  induction ps generalizing ts with
  | nil =>
    obtain rfl : ts = [] := List.map_eq_nil_iff.mp h.symm
    exact reads_pure rfl
  | cons p ps ih =>
    obtain ⟨t, ts, rfl⟩ : ∃ t ts', ts = t :: ts' := by
      cases ts with
      | nil => cases h
      | cons t ts => exact ⟨t, ts, rfl⟩
    obtain ⟨ht, hts⟩ := List.cons.inj h
    rw [List.mapM_cons]
    apply (reads_target p.1 ht).last
    intro place hplace
    apply (ih ts hts).last
    intro places hplaces
    refine reads_pure ?_
    rw [List.map_cons, hplace, hplaces]

/-- Places and a value, with equals signs between them. -/
theorem asSimple_assign {p : PlaceItem} {ps : List PlaceItem} {value : Item} (hp : p.item.Listed)
    (hps : ∀ p ∈ ps, p.item.Listed) (hvalue : value.Listed)
    (hplaces : ∀ q ∈ p :: ps, q.item.value.withContext? .store = some q.place) :
    AsSimple (depthOf ((p :: ps).map PlaceItem.item ++ [value]))
      (p.item.faces ++ assignedFaces (ps.map PlaceItem.item ++ [value]))
      (.assign () ((p :: ps).map PlaceItem.place) value.value) := by
  have hstarts : startsExpr
      (front (p.item.faces ++ assignedFaces (ps.map PlaceItem.item ++ [value]))).1 = true := by
    rw [front_eq hp.starts]
    exact hp.starts
  refine asSimple_of (p := exprStatement) (startsSimple_of_startsExpr hstarts)
    (fun t ht => sentence_of_startsExpr (ht ▸ hstarts)) fun rest hrest => ?_
  refine reads_peek_bind fun first _ => ?_
  have hassign : (front (assignedFaces (ps.map PlaceItem.item ++ [value]) ++ rest)) =
      TokenKind.face .assign := by
    cases ps <;> rfl
  have hstops : Stops (front (assignedFaces (ps.map PlaceItem.item ++ [value]) ++ rest)) := by
    rw [hassign]
    exact stops_of_kind (.inr (.inr (.inl rfl)))
  have hfirst := hp.reads maxDepth _ hstops (by rw [hassign]; nofun)
  refine (hfirst.bind (G := ∀ i ∈ ps.map PlaceItem.item ++ [value], i.levels ≤ maxDepth)
    fun r hr => ?_).congr ?_
  · apply reads_peekKind_bind
    rw [hassign]
    show Reads _ (assignment first r) _ _ _ _
    rw [assignment_eq]
    have hlisted : ∀ i ∈ ps.map PlaceItem.item ++ [value], i.Listed := by
      rw [List.forall_mem_append, List.forall_mem_map, List.forall_mem_singleton]
      exact ⟨hps, hvalue⟩
    have hloop := loops_assignStep hlisted hrest ([], first, r)
    apply (reads_iterate hloop).last
    intro x hx
    have hall : x.1.map (fun p => p.2.erase) ++ [x.2.2.erase] =
        ((p :: ps).map fun q => q.item.value) ++ [value.value] := by
      have hx : Assigned.all x = _ := hx
      rw [Assigned.all] at hx
      rw [hx]
      simp [Assigned.all, hr, Function.comp_def]
    obtain ⟨hread, hlast⟩ := List.append_inj' hall rfl
    apply (reads_targets x.1 ((p :: ps).map PlaceItem.place) ?_).last
    · intro places hplaces
      refine reads_register_bind fun m => reads_pure ?_
      rw [Stmt.erase_assign, hplaces, (List.cons.inj hlast).1]
    · have heq : x.1.map (fun p => p.2.erase.withContext? .store) =
          (x.1.map fun p => p.2.erase).map (Expr.withContext? .store) := by
        rw [List.map_map]
        rfl
      rw [heq, hread, List.map_map, List.map_map]
      exact List.map_congr_left hplaces
  · rw [depthOf_le_iff, List.map_cons, List.cons_append, List.forall_mem_cons]

/-- A place and a value, with an operator and an equals sign between them. -/
theorem asSimple_augAssign {p : PlaceItem} {value : Item} (op : BinaryOp) (hp : p.item.Listed)
    (hvalue : value.Listed) (hsingle : p.item.value.isPlace = true)
    (hplace : p.item.value.withContext? .store = some p.place) :
    AsSimple (depthOf [p.item, value])
      (p.item.faces ++ TokenKind.face (.augmented op) :: value.faces)
      (.augAssign () p.place op value.value) := by
  have hstarts : startsExpr
      (front (p.item.faces ++ TokenKind.face (.augmented op) :: value.faces)).1 = true := by
    rw [front_eq hp.starts]
    exact hp.starts
  refine asSimple_of (p := exprStatement) (startsSimple_of_startsExpr hstarts)
    (fun t ht => sentence_of_startsExpr (ht ▸ hstarts)) fun rest hrest => ?_
  refine reads_peek_bind fun first _ => ?_
  have hfirst := hp.reads maxDepth (TokenKind.face (.augmented op) :: value.faces ++ rest)
    ⟨⟨nofun, nofun, nofun, nofun⟩, rfl⟩ nofun
  refine (hfirst.bind (G := value.levels ≤ maxDepth) fun r hr => ?_).congr ?_
  · apply reads_peekKind_bind
    show Reads _ (if r.isPlace = true then _ else _) _ _ _ _
    have hplaceable : r.isPlace = true := by
      rw [← Expr.isPlace_erase, hr, hsingle]
    rw [if_pos hplaceable]
    refine reads_advance_bind (by nofun) fun _ _ => ?_
    have hstops : Stops (front rest) := by
      rw [hrest]
      exact stops_newLine
    apply (hvalue.reads maxDepth _ hstops (by rw [hrest]; nofun)).last
    intro v hv
    refine reads_register_bind fun m => reads_pure ?_
    rw [← hr, Expr.withContext?_erase] at hplace
    obtain ⟨place, hmade, hplace⟩ := Option.map_eq_some_iff.mp hplace
    rw [Stmt.erase_augAssign, hmade, Option.getD_some, hplace, hv]
  · simp [depthOf]

/-! ### Imports -/

/-- A name with others behind it, each after a point. -/
def dotted (a : String) (bs : List String) : String := bs.foldl (fun s b => s ++ "." ++ b) a

/-- The faces of names, each after a point. -/
def dottedFaces (bs : List String) : List Face :=
  bs.flatMap fun b => [TokenKind.face .dot, Format.nameFace b]

theorem reads_dottedName (a : String) (bs : List String) (hrest : (front rest).1 ≠ .dot) :
    Reads bad dottedName True (Format.nameFace a :: dottedFaces bs) rest fun s => s =
      dotted a bs := by
  refine reads_expect_bind rfl (by nofun) fun first hfirst => ?_
  have hvalue : first.value = a := congrArg Prod.snd hfirst
  rw [hvalue]
  apply reads_iterate
  induction bs generalizing a first with
  | nil =>
    apply Loops.done
    apply reads_accept_neg
    · exact hrest
    · exact reads_pure ⟨a, rfl, rfl⟩
  | cons b bs ih =>
    have hstep {step : String → Parse (Next String String)} (hstep : step = fun name => do
        if ← accept .dot then
          let next ← expect .identifier
          return .again (name ++ "." ++ next.value)
        else return .done name) :
        Reads bad (step a) True [TokenKind.face .dot, Format.nameFace b] (dottedFaces bs ++ rest)
          fun r => ∃ s, r = .again s ∧ s = a ++ "." ++ b := by
      rw [hstep]
      refine reads_accept_pos rfl (by nofun) ?_
      simp only [if_true]
      refine reads_expect_bind rfl (by nofun) fun next hnext => ?_
      refine reads_pure ⟨_, rfl, ?_⟩
      have hvalue : next.value = b := congrArg Prod.snd hnext
      rw [hvalue]
    refine (Loops.again (hstep rfl) (by simp) (G := True) ?_).congr (and_iff_left trivial)
    rintro _ rfl
    exact ih (a ++ "." ++ b) ⟨.identifier, a ++ "." ++ b, {}⟩ rfl rfl

/-- An imported name: the faces of its name, and what it is. -/
structure AliasItem where
  name : List Face
  value : Alias Unit

namespace AliasItem

/-- The faces of an imported name. -/
def faces (a : AliasItem) : List Face :=
  a.name ++ a.value.asName.elim [] fun id => [TokenKind.face (.keyword .as), Format.nameFace id]

/-- A rule reads the name of what is imported. -/
structure Sound (rule : Parse String) (a : AliasItem) : Prop where
  some : a.name ≠ []
  reads : ∀ (bad : Fault → Prop) (rest : List Face), (front rest).1 ≠ .dot →
    Reads bad rule True a.name rest fun s => s = a.value.name

end AliasItem

theorem importName_eq (name : Parse String) :
    importName name = do
      let token ← peek
      let name ← name
      if ← accept (.keyword .as) then
        let id ← expect .identifier
        return ⟨← register .importName token.pos, name, some id.value⟩
      else return ⟨← register .importName token.pos, name, none⟩ := by
  congr! 6

/-- An imported name, in front of what may stand behind it. -/
theorem reads_importName {rule : Parse String} {a : AliasItem} (ha : a.Sound rule)
    (rest : List Face)
    (hrest : (front rest).1 = .comma ∨ (front rest).1 = .newLine) :
    Reads bad (importName rule) True a.faces rest fun r => r.erase = a.value := by
  have hdot : (front rest).1 ≠ .dot ∧ (front rest).1 ≠ .keyword .as := by
    rcases hrest with hrest | hrest
    all_goals
      rw [hrest]
      exact ⟨nofun, nofun⟩
  obtain ⟨name, ⟨m, id, asName⟩⟩ := a
  rw [importName_eq]
  refine reads_peek_bind fun token _ => ?_
  cases asName with
  | none =>
    have hname := ha.reads bad rest hdot.1
    rw [AliasItem.faces]
    simp only [Option.elim_none, List.append_nil]
    apply hname.last
    rintro _ rfl
    apply reads_accept_neg
    · exact hdot.2
    · exact reads_register_bind fun m => reads_pure rfl
  | some other =>
    have hname := ha.reads bad
      ([TokenKind.face (.keyword .as), Format.nameFace other] ++ rest) nofun
    apply hname.next
    rintro _ rfl
    refine reads_accept_pos rfl (by nofun) ?_
    simp only [if_true]
    refine reads_expect_bind rfl (by nofun) fun next hnext => ?_
    refine reads_register_bind fun m => reads_pure ?_
    have hvalue : next.value = other := congrArg Prod.snd hnext
    rw [hvalue]
    rfl

/-- One round of a loop over imported names. Behind a comma it is asked whether the loop goes on. -/
def aliasStep (rule : Parse String)
    (behind : List (Alias Mark) → Parse (Next (List (Alias Mark)) (List (Alias Mark))))
    (names : List (Alias Mark)) : Parse (Next (List (Alias Mark)) (List (Alias Mark))) := do
  let names := names ++ [← importName rule]
  if ← accept .comma then behind names else return .done names

/-- Imported names, if the loop goes on behind every comma. -/
theorem reads_aliases {rule : Parse String}
    (behind : List (Alias Mark) → Parse (Next (List (Alias Mark)) (List (Alias Mark))))
    (hbehind : ∀ names gs, Reads bad (behind names) True [] gs fun r => r = .again names)
    {as : List AliasItem} (has : ∀ a ∈ as, a.Sound rule) (hsome : as ≠ [])
    (hrest : front rest = newLineFace) :
    Reads bad (iterate (aliasStep rule behind) []) True
      (Format.commaFaces (as.map AliasItem.faces)) rest
      fun names => names.map Alias.erase = as.map AliasItem.value := by
  apply reads_iterate
  have htrivial : (∀ a ∈ as, True) ↔ True := by simp
  refine (loops_commas AliasItem.faces (fun _ => True) (I := fun left (names : List (Alias Mark)) =>
    names.map Alias.erase ++ left.map AliasItem.value = as.map AliasItem.value) hsome ?_ ?_ ?_
      rfl).congr htrivial
  · intro a ha
    rw [AliasItem.faces]
    simp [(has a ha).some]
  · intro a names ha hnames
    have hnewLine : (front rest).1 = .newLine := by
      rw [hrest]
      rfl
    apply (reads_importName (has a ha) rest (.inr hnewLine)).last
    intro r hr
    apply reads_accept_neg
    · rw [List.nil_append, hrest]
      nofun
    · refine reads_pure ⟨_, rfl, ?_⟩
      rw [List.map_append, List.map_singleton, hr]
      exact hnames
  · intro a b left names gs ha hb hnames hgs
    have hname : Reads bad (importName rule) True a.faces ([TokenKind.face .comma] ++ gs) _ :=
      reads_importName (has a ha) _ (.inl rfl)
    refine (hname.bind (G := True) fun r hr => ?_).congr (and_iff_left trivial)
    refine reads_accept_pos rfl (by nofun) ?_
    simp only [if_true]
    apply (hbehind (names ++ [r]) gs).imp
    rintro _ rfl
    refine ⟨_, rfl, ?_⟩
    rw [← hnames]
    simp [hr]

/-- Modules to be imported. -/
theorem asSimple_imports {as : List AliasItem} (has : ∀ a ∈ as, a.Sound dottedName)
    (hsome : as ≠ []) :
    AsSimple 0 (TokenKind.face (.keyword .imports) :: Format.commaFaces (as.map AliasItem.faces))
      (.imports () (as.map AliasItem.value)) := by
  have heq : importStatement = do
      let word ← advance
      let names ← iterate (aliasStep dottedName fun names => return .again names) []
      return .imports (← register .imports word.pos) names := rfl
  refine asSimple_of (p := importStatement) rfl (fun t ht => by rw [sentence, ht]; rfl)
    fun rest hrest => ?_
  rw [heq]
  refine Reads.congr (F := True) ?_ (iff_of_true trivial (Nat.zero_le _))
  refine reads_advance_bind (by nofun) fun word _ => ?_
  apply (reads_aliases _ (fun names gs => reads_pure rfl) has hsome hrest).last
  intro names hnames
  refine reads_register_bind fun m => reads_pure ?_
  rw [Stmt.erase_imports, hnames]

/-- The names imported from a module: all of them, or some. -/
inductive ImportedFaces : List Face → List (Alias Unit) → Prop where
  | all : ImportedFaces [TokenKind.face (.binary .mult)] [⟨(), "*", none⟩]
  | some {as : List AliasItem} (has : ∀ a ∈ as, a.Sound identifier) (hsome : as ≠ [])
      (hstarts : ∀ a ∈ as, (front a.name).1 = .identifier) :
      ImportedFaces (Format.commaFaces (as.map AliasItem.faces)) (as.map AliasItem.value)

theorem front_commaFaces {fs : List Face} {parts : List (List Face)} (h : fs ≠ []) :
    front (Format.commaFaces (fs :: parts)) = front fs := by
  cases parts with
  | nil => rw [Format.commaFaces_singleton]
  | cons gs parts => rw [Format.commaFaces_cons_cons, List.append_assoc, front_append h]

theorem reads_importedNames {names : List (Alias Unit)} (h : ImportedFaces fs names)
    (hrest : front rest = newLineFace) :
    Reads bad importedNames True fs rest fun r => r.map Alias.erase = names := by
  refine reads_peek_bind fun star _ => ?_
  cases h with
  | all =>
    refine reads_accept_pos rfl (by nofun) ?_
    simp only [if_true]
    exact reads_register_bind fun m => reads_pure rfl
  | @some as has hsome hstarts =>
    obtain ⟨a, as, rfl⟩ := List.exists_cons_of_ne_nil hsome
    have ha := has a List.mem_cons_self
    have hname : a.faces ≠ [] := by
      rw [AliasItem.faces]
      simp [ha.some]
    have hcommas : Format.commaFaces ((a :: as).map AliasItem.faces) ≠ [] := by
      cases as with
      | nil => rwa [List.map_singleton, Format.commaFaces_singleton]
      | cons b as =>
        rw [List.map_cons, List.map_cons, Format.commaFaces_cons_cons]
        simp
    have hfront : (front (Format.commaFaces ((a :: as).map AliasItem.faces) ++ rest)).1 =
        .identifier := by
      rw [front_append hcommas, List.map_cons, front_commaFaces hname, AliasItem.faces,
        front_append ha.some]
      exact hstarts a List.mem_cons_self
    apply reads_accept_neg
    · rw [hfront]
      nofun
    simp only [Bool.false_eq_true, if_false]
    apply reads_accept_neg
    · rw [hfront]
      nofun
    let behind (names : List (Alias Mark)) :
      Parse (Next (List (Alias Mark)) (List (Alias Mark))) := do
      if false && (← check (.closing .paren)) then return .done names else return .again names
    have hbehind (names : List (Alias Mark)) (gs : List Face) :
        Reads bad (behind names) True [] gs fun r => r = .again names :=
          reads_check_bind (reads_pure rfl)
    apply (reads_aliases behind hbehind has hsome hrest).last
    intro r hr
    exact reads_pure hr

/-- One round of the loop over the points in front of a module. -/
def levelStep (level : Nat) : Parse (Next Nat Nat) := do
  if ← accept .dot then return .again (level + 1) else return .done level

theorem loops_levelStep (level : Nat) (hrest : (front rest).1 ≠ .dot) (n : Nat) :
    Loops bad levelStep n True (List.replicate level (TokenKind.face .dot)) rest fun m => m =
      n + level := by
  induction level generalizing n with
  | zero =>
    apply Loops.done
    apply reads_accept_neg
    · exact hrest
    · exact reads_pure ⟨n, rfl, rfl⟩
  | succ level ih =>
    have hstep : Reads bad (levelStep n) True [TokenKind.face .dot]
        (List.replicate level (TokenKind.face .dot) ++ rest) fun r => ∃ m : Nat, r = .again m ∧
          m = n + 1 := by
      refine reads_accept_pos rfl (by nofun) ?_
      simp only [if_true]
      exact reads_pure ⟨n + 1, rfl, rfl⟩
    refine (Loops.again hstep (by simp) (G := True) ?_).congr (and_iff_left trivial)
    rintro _ rfl
    have hnext := ih (n + 1)
    rwa [Nat.add_assoc, Nat.add_comm 1] at hnext

/-- The faces of the module that names are imported from. -/
def moduleFaces (module : Option (String × List String)) : List Face :=
  module.elim [] fun p => Format.nameFace p.1 :: dottedFaces p.2

/-- The name of a module behind points, if it has one. -/
def moduleName (level : Nat) : Parse (Option String) := do
  if level = 0 || (← check .identifier) then some <$> dottedName else pure none

theorem reads_moduleName {level : Nat} {module : Option (String × List String)}
    (hmodule : module = none → 0 < level) (rest : List Face)
    (hrest : (front rest).1 = .keyword .imports) :
    Reads bad (moduleName level) True (moduleFaces module) rest
      fun r => r = module.map fun p => dotted p.1 p.2 := by
  apply reads_check_bind
  cases module with
  | none =>
    have hnone : (decide (level = 0) || decide
        ((front (moduleFaces none ++ rest)).1 = .identifier)) = false := by
      have hlevel : level ≠ 0 := Nat.pos_iff_ne_zero.mp (hmodule rfl)
      have hfront : (front (moduleFaces none ++ rest)).1 = .keyword .imports := hrest
      simp [hlevel, hfront]
    rw [hnone, if_neg Bool.false_ne_true]
    exact reads_pure rfl
  | some p =>
    have hsome : (decide (level = 0) || decide
        ((front (moduleFaces (some p) ++ rest)).1 = .identifier)) = true := by
      have hfront : (front (moduleFaces (some p) ++ rest)).1 = .identifier := rfl
      simp [hfront]
    rw [hsome, if_pos rfl]
    have hdot : (front rest).1 ≠ .dot := by
      rw [hrest]
      nofun
    apply (reads_dottedName p.1 p.2 hdot).map
    rintro _ rfl
    rfl

theorem importFromStatement_eq :
    importFromStatement = do
      let word ← advance
      let level ← iterate levelStep 0
      let module ← moduleName level
      let _ ← expect (.keyword .imports)
      let names ← importedNames
      return .importFrom (← register .importFrom word.pos) module names level := by
  unfold importFromStatement levelStep moduleName
  congr! 4
  rw [bind_assoc]
  congr! 2
  split <;> rfl

/-- Names to be imported from a module. -/
theorem asSimple_importFrom {level : Nat} {module : Option (String × List String)}
    {names : List (Alias Unit)}
    (hmodule : module = none → 0 < level) (hnames : ImportedFaces fs names) :
    AsSimple 0 (TokenKind.face (.keyword .from) :: (List.replicate level (TokenKind.face .dot) ++
        (moduleFaces module ++ TokenKind.face (.keyword .imports) :: fs)))
      (.importFrom () (module.map fun p => dotted p.1 p.2) names level) := by
  refine asSimple_of (p := importFromStatement) rfl (fun t ht => by rw [sentence, ht]; rfl)
    fun rest hrest => ?_
  rw [importFromStatement_eq]
  refine Reads.congr (F := True) ?_ (iff_of_true trivial (Nat.zero_le _))
  refine reads_advance_bind (by nofun) fun word _ => ?_
  have hdot : (front (moduleFaces module ++ TokenKind.face (.keyword .imports) :: fs ++ rest)).1 ≠
      .dot := by
    cases module <;> nofun
  apply (reads_iterate (loops_levelStep level hdot 0)).next
  intro m hm
  obtain rfl : m = level := by rw [hm, Nat.zero_add]
  apply (reads_moduleName hmodule (TokenKind.face (.keyword .imports) :: fs ++ rest) rfl).next
  rintro _ rfl
  refine reads_expect_bind rfl (by nofun) fun _ _ => ?_
  apply (reads_importedNames hnames hrest).last
  intro r hr
  refine reads_register_bind fun m => reads_pure ?_
  rw [Stmt.erase_importFrom, hr]

/-! ## Single expressions -/

theorem stops_endFace : Stops endFace := ⟨⟨nofun, nofun, nofun, nofun⟩, rfl⟩

/-- An expression that is all of a text, if it is not nested too deeply. -/
theorem runs_singleExpression {s : ParseState} (h : AsList n fs e)
    (hs : s.faces = fs ++ [endFace]) :
    (n ≤ maxDepth → ∃ m r s', StateT.run singleExpression s = .ok (.expression m r, s') ∧
      r.erase = e) ∧
      (maxDepth < n → ∃ f, StateT.run singleExpression s = .error f ∧ IsTooDeep f) := by
  obtain ⟨hok, hfault⟩ := h.reads maxDepth [endFace] stops_endFace nofun s hs
  constructor
  · intro hn
    obtain ⟨r, s₁, hrun, hs₁, hr⟩ := hok hn
    obtain ⟨m, s', hall⟩ := run_singleExpression_of hrun hs₁
    exact ⟨m, r, s', hall, hr⟩
  · intro hn
    obtain ⟨f, hrun, hf⟩ := hfault (Nat.not_le.mpr hn)
    refine ⟨f, ?_, hf⟩
    have hindent : s.next.kind ≠ .indentation := by
      have hface := face_next s
      rw [hs, front_eq h.starts] at hface
      have hkind : s.next.kind = (front fs).1 := congrArg Prod.fst hface
      rw [hkind]
      exact front_ne h.starts rfl
    unfold singleExpression
    rw [run_peek_bind]
    simp only [if_neg hindent]
    rw [StateT.run_bind]
    have hrun : StateT.run anyExprList s = .error f := hrun
    rw [hrun]
    rfl

end Parse

end Toolchain
