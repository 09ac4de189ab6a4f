import Toolchain.Proofs.Format.Lines

/-!
# The first lines of statements

Every statement begins with a line of its own: a simple statement is that line, a compound one has
its body under it. What is written on the line spells some tokens, and the rule of the grammar for
that sort of statement reads them. This holds for each sort of statement by itself, so there is one
lemma for each, made of what the two sides say about the expressions on the line.

The parser reads what is assigned to as an expression and makes a place of it, and the places of the
tree are written. So every place has to be traced back to an expression that is written in the same
way.

## Main definitions

* `Format.PlacedAs`: the tokens of a place and the expression that the parser makes it of
* `Format.headLevels`: how deep the expressions of the first line of a statement are nested
* `Format.Frame.Simple`: a simple statement is read back from its line
* `Format.Opens`, `Format.Continues`: the line of a clause that begins or goes on with a statement

## Main results

* `Format.exists_placedAs`: a place is read back from what is written of it
* the lemmas `Format.simple_*`, `Format.opens_*`, `Format.continues_*`: **each sort of line is read
  back**
-/

namespace Toolchain

namespace Format

open Parse Lexer

variable {α : Type}

/-! ## Places -/

/-- A place is written like the expression that it was made of. -/
structure SameText (e t : Expr α) : Prop where
  parens : ∀ place, needsParens place t = needsParens place e
  bare : ∀ spaced, bare spaced t = bare spaced e
  levels : levels t = levels e
  clear : t.Clear → e.Clear

theorem SameText.expr {e t : Expr α} (h : SameText e t) (spaced : Bool) (place : Place) :
    expr spaced place t = expr spaced place e := by
  unfold Format.expr inPlace
  rw [h.parens, h.bare]

section

variable {es ts : List (Expr α)} (h : List.Forall₂ SameText es ts)

include h

theorem map_expr_sameText (spaced : Bool) (place : Place) :
    ts.map (expr spaced place) = es.map (expr spaced place) := by
  induction h with
  | nil => rfl
  | cons he _ ih => rw [List.map_cons, List.map_cons, he.expr, ih]

theorem listed_sameText (spaced : Bool) (place : Place) :
    listed spaced place ts = listed spaced place es := by
  induction h with
  | nil => rfl
  | cons he _ ih =>
    rw [listed, listed, ih]
    exact congrArg (· :: _) (he.expr spaced place)

theorem listedLevels_sameText (place : Place) : listedLevels place ts = listedLevels place es := by
  induction h with
  | nil => rfl
  | cons he _ ih => rw [listedLevels, listedLevels, he.parens, he.levels, ih]

theorem allClear_sameText (hts : Expr.AllClear ts) : Expr.AllClear es := by
  induction h with
  | nil => trivial
  | cons he _ ih =>
    exact ⟨he.clear hts.1, ih hts.2⟩

end

mutual

theorem sameText {ctx : Context} : ∀ {e t : Expr α}, e.withContext? ctx = some t → SameText e t
  | .name .., t, h => by
    cases h
    refine ⟨fun _ => rfl, fun spaced => ?_, ?_, fun _ => ?_⟩
    · rw [bare_name, bare_name]
    · rw [levels, levels]
    · trivial
  | .attr .., t, h => by
    cases h
    refine ⟨fun _ => rfl, fun spaced => ?_, ?_, fun hclear => ?_⟩
    · rw [bare_attr, bare_attr]
    · rw [levels, levels]
    · exact hclear
  | .subscript .., t, h => by
    cases h
    refine ⟨fun _ => rfl, fun spaced => ?_, ?_, fun hclear => ?_⟩
    · rw [bare_subscript, bare_subscript]
    · rw [levels, levels]
    · exact hclear
  | .list m elts _, t, h => by
    obtain ⟨ts, hts, rfl⟩ := Option.map_eq_some_iff.mp h
    have hsame := sameTexts hts
    refine ⟨fun _ => rfl, fun spaced => ?_, ?_, fun hclear => ?_⟩
    · rw [bare_list, bare_list, listed_sameText hsame]
    · rw [levels, levels, listedLevels_sameText hsame]
    · exact allClear_sameText hsame hclear
  | .tuple m elts _, t, h => by
    obtain ⟨ts, hts, rfl⟩ := Option.map_eq_some_iff.mp h
    have hsame := sameTexts hts
    refine ⟨fun place => ?_, fun spaced => ?_, ?_, fun hclear => ?_⟩
    · rw [needsParens, needsParens, hsame.length_eq]
    · rw [bare_tuple, bare_tuple, listed_sameText hsame]
    · rw [levels, levels, listedLevels_sameText hsame]
    · exact allClear_sameText hsame hclear
  | .boolOp .., t, h | .binOp .., t, h | .unaryOp .., t, h | .lambda .., t, h | .dict .., t, h
  | .compare .., t, h
  | .call .., t, h | .constant .., t, h | .slice .., t, h | .index .., t, h
  | .formatted .., t, h => by
    all_goals cases h

theorem sameTexts {ctx : Context} : ∀ {es ts : List (Expr α)}, Expr.withContexts? ctx es = some ts →
    List.Forall₂ SameText es ts
  | [], ts, h => by
    cases h
    exact .nil
  | e :: es, ts, h => by
    rw [Expr.withContexts?] at h
    split at h
    · next t ht =>
      obtain ⟨ts, hts, rfl⟩ := Option.map_eq_some_iff.mp h
      exact .cons (sameText ht) (sameTexts hts)
    · cases h

end

/-- An expression that is read back, and the place that was made of it. -/
structure Loaded (ctx : Context) (e t : Expr α) : Prop where
  wellFormed : e.WellFormed
  clear : e.Clear
  made : e.withContext? ctx = some t

theorem exists_loaded {ctx : Context} {t : Expr α} (h : t.IsTarget ctx) (hclear : t.Clear) :
    ∃ e, Loaded ctx e t := by
  obtain ⟨e, he, ht⟩ := h
  exact ⟨e, he, (sameText ht).clear hclear, ht⟩

/-! ## Expressions on a line -/

/-- On a whole line an expression stands like an element, unless it is a tuple of several
elements. -/
theorem top_cases (e : Expr α) : needsParens .top e = needsParens .element e ∨
    ∃ m a b es ctx, e = .tuple m (a :: b :: es) ctx := by
  cases e with
  | tuple m elts ctx =>
    rcases elts with _ | ⟨a, _ | ⟨b, es⟩⟩
    · exact .inl rfl
    · exact .inl rfl
    · exact .inr ⟨m, a, b, es, ctx, rfl⟩
  | constant m v => cases v <;> exact .inl rfl
  | _ => exact .inl rfl

variable {spaced : Bool} {e : Expr α}

theorem isRow_expr (place : Place) (hplace : place ≠ .field) (h : e.WellFormed) :
    IsRow (expr spaced place e) (placed spaced place e).faces where
  spells := (written spaced h).inPlace place
  starts := by
    by_cases htop : place = .top
    · subst htop
      rcases top_cases e with hsame | ⟨m, a, b, es, ctx, rfl⟩
      · have hstarts := (written spaced h).starts_inPlace (p := .element) ⟨nofun, nofun⟩
        unfold inPlace at hstarts
        unfold expr inPlace
        rwa [hsame]
      · show Starts (bare spaced (.tuple m (a :: b :: es) ctx))
        have hstarts := (written spaced h.1.1).starts_inPlace (p := .element) ⟨nofun, nofun⟩
        rw [bare_tuple, listed, listed]
        show Starts (commas _)
        rw [commas, List.intercalate_cons_cons, List.append_assoc]
        exact hstarts.append _
    · exact (written spaced h).starts_inPlace ⟨htop, hplace⟩

/-- An expression as a whole line, or as part of one, on which a tuple has no parentheses. -/
theorem listed_placed (h : e.WellFormed) (hclear : e.Clear) : (placed spaced .top e).Listed := by
  rcases top_cases e with hsame | ⟨m, a, b, es, ctx, rfl⟩
  · have hplaced : placed spaced .top e = placed spaced .element e := by
      unfold placed
      rw [hsame]
    rw [hplaced]
    exact ((readBack spaced h hclear).sound .element ⟨nofun, nofun⟩).list
  · obtain ⟨hall, rfl⟩ := h
    show AsList (levels (.tuple m (a :: b :: es) .load))
      (faces spaced (.tuple m (a :: b :: es) .load))
      (Expr.tuple m (a :: b :: es) .load).erase
    have hsound : ∀ i ∈ (a :: b :: es).map (placed spaced .element), i.Sound :=
      sound_placed ⟨nofun, nofun⟩ (readBack_all spaced hall hclear)
    rw [levels, faces, Expr.erase_tuple, listedFaces_eq, listedLevels_eq spaced,
      ← map_value_placed spaced .element]
    exact asList_tuple hsound (by simp)

/-- Expressions with commas between them. -/
theorem spells_exprs (spaced : Bool) (place : Place) (hplace : place ≠ .field) {es : List (Expr α)}
    (h : Expr.AllWellFormed es) :
    Spells afterLiteral (commas (es.map (expr spaced place)))
      (commaFaces ((es.map (placed spaced place)).map Item.faces)) := by
  rw [List.map_map]
  rw [Expr.allWellFormed_iff] at h
  exact spells_commas (forall₂_map fun e he => (isRow_expr place hplace (h e he)).spells)

namespace IsRow

variable {cs ds : List Char} {fs gs : List Face}

/-- A reserved word on a line. -/
theorem word (k : Keyword) : IsRow k.spelling.toList [TokenKind.face (.keyword k)] where
  starts := by
    obtain ⟨c, cs, hk, hc, -⟩ := letters_spelling k
    refine ⟨c, cs, hk, ?_⟩
    simp [startsOperand, isAlphaNumeric, hc]
  spells := (spells_keyword k).mono afterWord_of_afterLiteral

/-- What is said at the beginning of a line, and more of it. -/
theorem followed {d : Char} (h : IsRow cs fs) (h' : Spells afterLiteral (d :: ds) gs)
    (hd : afterLiteral d = true) :
    IsRow (cs ++ d :: ds) (fs ++ gs) where
  starts := h.starts.append _
  spells := h.spells.followed h' hd

/-- A line that begins with a reserved word. -/
theorem after {s : String} (k : Keyword) (hs : s = k.spelling ++ " ")
    (h : Spells afterLiteral ds gs) :
    IsRow (s.toList ++ ds) (TokenKind.face (.keyword k) :: gs) := by
  have hrow := (word k).followed h.blank rfl
  have heq : s.toList ++ ds = k.spelling.toList ++ ' ' :: ds := by
    rw [hs, String.toList_append, List.append_assoc]
    rfl
  rwa [heq]

/-- The line of a clause. -/
theorem colon (h : IsRow cs fs) : IsRow (cs ++ [':']) (fs ++ [TokenKind.face .colon]) :=
  h.followed (spells_colon.mono fun _ _ => rfl) rfl

end IsRow

/-- What stands on both sides of a reserved word. -/
theorem spells_between {cs ds : List Char} {fs gs : List Face} {s : String} (k : Keyword)
    (hs : s = " " ++ k.spelling ++ " ") (h : Spells afterLiteral cs fs)
    (h' : Spells afterLiteral ds gs) :
    Spells afterLiteral (cs ++ s.toList ++ ds) (fs ++ TokenKind.face (.keyword k) :: gs) := by
  have hspells := spells_spaced h (spells_keyword k) rfl h'
  have heq : s.toList = operator true k.spelling := by
    rw [hs, String.toList_append, String.toList_append]
    rfl
  rw [heq]
  rwa [List.append_assoc fs] at hspells

/-! ## Places on a line -/

/-- What a place on a line is read from. -/
structure PlacedAs (spaced : Bool) (place : Place) (ctx : Context) (t : Expr α)
    (p : PlaceItem) : Prop where
  value : p.place = t.erase
  levels : p.item.levels = around (needsParens place t) (Format.levels t)
  row : IsRow (Format.expr spaced place t) p.item.faces
  made : p.item.value.withContext? ctx = some p.place
  loaded : ∃ e : Expr α, e.WellFormed ∧ e.Clear ∧ p.item = placed spaced place e

section Places

variable {ctx : Context} {place : Place}

theorem exists_placedAs (spaced : Bool) (place : Place) (hplace : place ≠ .field) {t : Expr α}
    (h : t.IsTarget ctx) (hclear : t.Clear) :
    ∃ p, PlacedAs spaced place ctx t p := by
  obtain ⟨e, he⟩ := exists_loaded h hclear
  have hsame := sameText he.made
  refine ⟨⟨placed spaced place e, t.erase⟩, rfl, ?_, ?_, ?_, e, he.wellFormed, he.clear, rfl⟩
  · rw [hsame.parens, hsame.levels]
    rfl
  · rw [hsame.expr]
    exact isRow_expr place hplace he.wellFormed
  · show e.erase.withContext? ctx = _
    rw [Expr.withContext?_erase, he.made, Option.map_some]

theorem PlacedAs.sound {t : Expr α} {p : PlaceItem} (h : PlacedAs spaced place ctx t p)
    (hplace : place ≠ .top ∧ place ≠ .field) : p.item.Sound := by
  obtain ⟨e, he, hclear, hitem⟩ := h.loaded
  rw [hitem]
  exact (readBack spaced he hclear).sound place hplace

theorem PlacedAs.listed {t : Expr α} {p : PlaceItem} (h : PlacedAs spaced .top ctx t p) :
    p.item.Listed := by
  obtain ⟨e, he, hclear, hitem⟩ := h.loaded
  rw [hitem]
  exact listed_placed he hclear

theorem exists_allPlacedAs (spaced : Bool) (place : Place) (hplace : place ≠ .field)
    {ts : List (Expr α)}
    (h : ∀ t ∈ ts, t.IsTarget ctx) (hclear : Expr.AllClear ts) :
      ∃ ps, List.Forall₂ (PlacedAs spaced place ctx) ts ps := by
  induction ts with
  | nil => exact ⟨[], .nil⟩
  | cons t ts ih =>
    obtain ⟨ht, hts⟩ := List.forall_mem_cons.mp h
    obtain ⟨p, hp⟩ := exists_placedAs spaced place hplace ht hclear.1
    obtain ⟨ps, hps⟩ := ih hts hclear.2
    exact ⟨p :: ps, .cons hp hps⟩

section All

variable {ts : List (Expr α)} {ps : List PlaceItem}
  (h : List.Forall₂ (PlacedAs spaced place ctx) ts ps)

include h

theorem map_place : ps.map PlaceItem.place = ts.map Expr.erase := by
  induction h with
  | nil => rfl
  | cons hp _ ih => rw [List.map_cons, List.map_cons, hp.value, ih]

theorem depthOf_places : depthOf (ps.map PlaceItem.item) = listedLevels place ts := by
  induction h with
  | nil =>
    rfl
  | cons hp _ ih =>
    rw [listedLevels, ← ih, ← hp.levels]
    rfl

theorem rows_places :
    List.Forall₂ IsRow (ts.map (Format.expr spaced place)) (ps.map fun p => p.item.faces) := by
  rw [List.forall₂_map_left_iff, List.forall₂_map_right_iff]
  exact h.imp fun _ _ hp => hp.row

theorem forall_places {P : PlaceItem → Prop}
    (hP : ∀ (t : Expr α) p, PlacedAs spaced place ctx t p → P p) :
    ∀ p ∈ ps, P p := by
  induction h with
  | nil => nofun
  | cons hp _ ih => exact List.forall_mem_cons.mpr ⟨hP _ _ hp, ih⟩

end All

end Places

/-- Rows with commas between them. -/
theorem isRow_commas {parts : List (List Char)} {fss : List (List Face)}
    (h : List.Forall₂ IsRow parts fss)
    (hsome : parts ≠ []) : IsRow (commas parts) (commaFaces fss) where
  starts := by
    cases h with
    | nil => exact absurd rfl hsome
    | cons hcs hparts =>
      cases hparts with
      | nil => simpa [commas] using hcs.starts
      | cons =>
        rw [commas, List.intercalate_cons_cons, List.append_assoc]
        exact hcs.starts.append _
  spells := spells_commas (h.imp fun _ _ hrow => hrow.spells)

/-! ## The depth of a line -/

/-- The targets of a loop. -/
def loopParts : Expr α → List (Expr α)
  | .tuple _ (a :: b :: es) _ => a :: b :: es
  | e => [e]

/-- How deep the expressions on the first line of a statement are nested. The targets of a loop are
operands, which are nested one less deep than expressions. -/
def headLevels : Stmt α → Nat
  | .functionDef _ _ s _ => listedLevels .element s.defaults
  | .classDef _ _ bases _ => listedLevels .element bases
  | .ret _ value => listedLevels .top value.toList
  | .delete _ targets => listedLevels .element targets
  | .assign _ targets value => listedLevels .top (targets ++ [value])
  | .augAssign _ target _ value => listedLevels .top [target, value]
  | .forLoop _ target iter _ =>
    max (listedLevels .operand (loopParts target) - 1) (listedLevels .top [iter])
  | .whileLoop _ test _ | .ifElse _ test _ _ => listedLevels .element [test]
  | .raise _ exc cause => listedLevels .element (exc.toList ++ cause.toList)
  | .assert _ test msg => listedLevels .element (test :: msg.toList)
  | .expr _ value => listedLevels .top [value]
  | _ => 0

theorem listedLevels_singleton (spaced : Bool) (place : Place) (e : Expr α) :
    listedLevels place [e] = (placed spaced place e).levels := by
  exact Nat.max_zero _

theorem toList_placed (place : Place) (o : Option (Expr α)) :
    (o.map (placed spaced place)).toList = o.toList.map (placed spaced place) := by
  cases o <;> rfl

theorem value_placed (place : Place) (o : Option (Expr α)) :
    (o.map (placed spaced place)).map Item.value = o.map Expr.erase := by
  cases o <;> rfl

/-! ## Simple statements -/

-- The equations are derived once, and not by each of the proofs that rewrite with them.
attribute [local grind =] headLevels listedLevels depthOf Expr.Clear Expr.WellFormed

/-- A simple statement is written on a line that is read as it. -/
def Frame.Simple (f : Frame) (s : Stmt α) : Prop :=
  ∀ alternative, ∃ fs, IsLine (f.head alternative s) fs ∧ AsSimple (headLevels s) fs s.erase

section Simple

variable (f : Frame) (m : α)

theorem simple_pass : f.Simple (.pass m) := fun _ => ⟨_, (IsRow.word .pass).line, asSimple_pass⟩

theorem simple_break : f.Simple (.breakLoop m) :=
  fun _ => ⟨_, (IsRow.word .break).line, asSimple_break⟩

theorem simple_continue : f.Simple (.continueLoop m) :=
  fun _ => ⟨_, (IsRow.word .continue).line, asSimple_continue⟩

theorem simple_ret {value : Option (Expr α)} (h : Expr.OptionWellFormed value)
    (hclear : Expr.OptionClear value) : f.Simple (.ret m value) := by
  intro alternative
  rw [Stmt.erase_ret, headLevels]
  cases value with
  | none => exact ⟨_, (IsRow.word .return).line, asSimple_return_none⟩
  | some e =>
    refine ⟨_, (IsRow.after .return rfl (isRow_expr .top nofun h).spells).line, ?_⟩
    rw [Option.toList_some, listedLevels_singleton f.options.spaceAroundOps]
    exact asSimple_return (listed_placed h hclear)

theorem simple_delete {targets : List (Expr α)} (hsome : targets ≠ [])
    (h : ∀ t ∈ targets, t.IsTarget .del)
    (hclear : Expr.AllClear targets) : f.Simple (.delete m targets) := by
  intro alternative
  obtain ⟨ps, hps⟩ := exists_allPlacedAs f.options.spaceAroundOps .element nofun h hclear
  have hne : ps ≠ [] := by
    rintro rfl
    cases hps
    exact hsome rfl
  have hrow := isRow_commas (rows_places hps) (by simpa using hsome)
  refine ⟨_, (IsRow.after .del rfl hrow.spells).line, ?_⟩
  rw [Stmt.erase_delete, headLevels, ← map_place hps, ← depthOf_places hps]
  exact asSimple_delete (forall_places hps fun _ _ hp => hp.sound (by decide)) hne
    (forall_places hps fun _ _ hp => hp.made)

/-- Rows with equals signs between them. -/
theorem isRow_assigned {parts : List (List Char)} {is : List Item}
    (h : List.Forall₂ IsRow parts (is.map Item.faces)) {cs : List Char} {fs : List Face}
    (hfirst : IsRow cs fs) :
    IsRow (List.intercalate " = ".toList (cs :: parts)) (fs ++ assignedFaces is) := by
  induction parts generalizing cs fs is with
  | nil =>
    obtain rfl : is = [] := by
      cases is with
      | nil => rfl
      | cons => cases h
    rw [List.intercalate_singleton, assignedFaces, List.flatMap_nil, List.append_nil]
    exact hfirst
  | cons ds parts ih =>
    cases is with
    | nil => cases h
    | cons i is =>
      obtain ⟨hi, his⟩ := List.forall₂_cons.mp h
      have hrest := ih his hi
      have hassign : Spells afterSymbol "=".toList [TokenKind.face .assign] :=
        spells_face (k := .assign) (by decide) (isFound_of_mem _ (by decide)) fun _ => rfl
      have hspells := spells_spaced hfirst.spells hassign rfl hrest.spells
      rw [List.intercalate_cons_cons]
      refine ⟨?_, ?_⟩
      · rw [List.append_assoc]
        exact hfirst.starts.append _
      · rwa [List.append_assoc fs] at hspells

theorem simple_assign {targets : List (Expr α)} {value : Expr α} (hsome : targets ≠ [])
    (h : ∀ t ∈ targets, t.IsTarget .store) (hvalue : value.WellFormed)
    (hclear : Expr.AllClear targets)
    (hclear' : value.Clear) : f.Simple (.assign m targets value) := by
  intro alternative
  obtain ⟨ps, hps⟩ := exists_allPlacedAs f.options.spaceAroundOps .top nofun h hclear
  obtain ⟨t, targets, rfl⟩ := List.exists_cons_of_ne_nil hsome
  obtain ⟨p, ps, hp, hps', rfl⟩ := List.forall₂_cons_left_iff.mp hps
  have hrow : IsRow (f.expr .top value) _ := isRow_expr .top nofun hvalue
  have hrows : List.Forall₂ IsRow ((targets ++ [value]).map (f.expr .top))
      ((ps.map PlaceItem.item ++ [placed f.options.spaceAroundOps .top value]).map Item.faces) := by
    rw [List.map_append, List.map_append, List.map_map]
    exact List.rel_append (rows_places hps') (.cons hrow .nil)
  have hlevels : headLevels (.assign m (t :: targets) value) =
      depthOf ((p :: ps).map PlaceItem.item ++ [placed f.options.spaceAroundOps .top value]) := by
    rw [headLevels, depthOf_append, depthOf_places hps, listedLevels_eq f.options.spaceAroundOps,
      List.map_append,
      depthOf_append, ← listedLevels_eq]
    rfl
  refine ⟨_, (isRow_assigned hrows hp.row).line, ?_⟩
  rw [Stmt.erase_assign, hlevels, ← map_place hps]
  exact asSimple_assign hp.listed (forall_places hps' fun _ _ hp => hp.listed)
    (listed_placed hvalue hclear')
    (forall_places hps fun _ _ hp => hp.made)

theorem isPlace_of_withContext? {ctx : Context} {e t : Expr α} (h : e.withContext? ctx = some t) :
    e.isPlace = t.isPlace := by
  cases e with
  | name | attr | subscript =>
    cases h
    rfl
  | list | tuple =>
    obtain ⟨ts, -, rfl⟩ := Option.map_eq_some_iff.mp h
    rfl
  | _ =>
    all_goals cases h

theorem simple_augAssign {target value : Expr α} (op : BinaryOp) (hsingle : target.isPlace = true)
    (htarget : target.IsTarget .store) (hvalue : value.WellFormed) (hclear : target.Clear)
    (hclear' : value.Clear) : f.Simple (.augAssign m target op value) := by
  intro alternative
  obtain ⟨p, hp⟩ := exists_placedAs f.options.spaceAroundOps .top nofun htarget hclear
  have hplace : p.item.value.isPlace = true := by
    rw [isPlace_of_withContext? hp.made, hp.value, Expr.isPlace_erase, hsingle]
  have hop : Spells afterSymbol (op.symbol ++ "=").toList [TokenKind.face (.augmented op)] := by
    have hmem : ((TokenKind.augmented op).spelling.toList, .augmented op) ∈ Lexeme.symbols := by
      cases op <;> decide
    exact spells_face hmem (isFound_of_mem _ hmem) fun _ => rfl
  have hrow : IsRow (f.expr .top value) _ := isRow_expr .top nofun hvalue
  have hspells := spells_spaced hp.row.spells hop rfl hrow.spells
  have hlevels : headLevels (.augAssign m target op value) =
      depthOf [p.item, placed f.options.spaceAroundOps .top value] := by
    rw [headLevels, listedLevels, ← hp.levels, listedLevels_singleton f.options.spaceAroundOps]
    simp [depthOf]
  have htext : f.head alternative (.augAssign m target op value) =
      f.expr .top target ++ operator true (op.symbol ++ "=") ++ f.expr .top value := by
    rw [operator, if_pos rfl, String.toList_append]
    show _ ++ ' ' :: op.symbol.toList ++ ['=', ' '] ++ _ = _ ++
      (' ' :: (op.symbol.toList ++ ['=']) ++ [' ']) ++ _
    simp only [List.append_assoc, List.cons_append, List.nil_append]
  rw [htext, hlevels, Stmt.erase_augAssign, ← hp.value]
  refine ⟨_, IsRow.line ⟨?_, hspells⟩, ?_⟩
  · rw [List.append_assoc]
    exact hp.row.starts.append _
  · rw [List.append_assoc]
    exact asSimple_augAssign op hp.listed (listed_placed hvalue hclear') hplace hp.made

/-- An expression behind a mark, if there is one. -/
theorem isRow_markedExpr (mark : TokenKind) {s : String} {o : Option (Expr α)}
    (h : Expr.OptionWellFormed o)
    {cs : List Char} {fs : List Face} (hrow : IsRow cs fs)
    (hmark : ∀ {ds gs}, Spells afterLiteral ds gs →
      Spells afterLiteral (cs ++ s.toList ++ ds) (fs ++ mark.face :: gs)) :
    IsRow (cs ++ f.clauseExpr s o)
      (fs ++ markedFaces mark (o.map (placed f.options.spaceAroundOps .element))) := by
  cases o with
  | none =>
    show IsRow (cs ++ []) (fs ++ [])
    rw [List.append_nil, List.append_nil]
    exact hrow
  | some e =>
    refine ⟨hrow.starts.append _, ?_⟩
    have hvalue : IsRow (f.expr .element e) _ := isRow_expr .element nofun h
    have hspells := hmark hvalue.spells
    rwa [List.append_assoc] at hspells

theorem sound_written {o : Option (Expr α)} (h : Expr.OptionWellFormed o)
    (hclear : Expr.OptionClear o) :
    ∀ i ∈ o.map (placed spaced .element), i.Sound := by
  intro i hi
  obtain ⟨e, he, rfl⟩ := Option.map_eq_some_iff.mp hi
  exact (readBack_option spaced h hclear e he).sound .element (by decide)

theorem simple_raise {exc cause : Option (Expr α)} (h : Expr.OptionWellFormed exc)
    (h' : Expr.OptionWellFormed cause) (hcause : exc = none → cause = none)
    (hclear : Expr.OptionClear exc)
    (hclear' : Expr.OptionClear cause) : f.Simple (.raise m exc cause) := by
  intro alternative
  cases exc with
  | none =>
    obtain rfl := hcause rfl
    rw [Stmt.erase_raise, headLevels]
    exact ⟨_, (IsRow.word .raise).line, asSimple_raise_none⟩
  | some e =>
    have hrow : IsRow ("raise ".toList ++ f.expr .element e) _ :=
      .after .raise rfl (isRow_expr .element nofun h).spells
    refine ⟨_, (isRow_markedExpr f (.keyword .from) h' hrow
      (spells_between .from rfl hrow.spells)).line, ?_⟩
    rw [Stmt.erase_raise, headLevels, listedLevels_eq f.options.spaceAroundOps, List.map_append,
      ← toList_placed,
      ← toList_placed, ← value_placed .element cause]
    exact asSimple_raise ((readBack _ h hclear).sound .element (by decide))
      (sound_written h' hclear')

theorem simple_assert {test : Expr α} {msg : Option (Expr α)} (h : test.WellFormed)
    (h' : Expr.OptionWellFormed msg)
    (hclear : test.Clear) (hclear' : Expr.OptionClear msg) : f.Simple (.assert m test msg) := by
  intro alternative
  have hrow : IsRow ("assert ".toList ++ f.expr .element test) _ :=
    .after .assert rfl (isRow_expr .element nofun h).spells
  refine ⟨_, (isRow_markedExpr f .comma h' hrow fun hmsg => ?_).line, ?_⟩
  · have hspells := spells_separated hrow.spells hmsg
    rwa [List.append_assoc (_ :: _)] at hspells
  · rw [Stmt.erase_assert, headLevels, listedLevels_eq f.options.spaceAroundOps, List.map_cons,
      ← toList_placed,
      ← value_placed .element msg]
    exact asSimple_assert ((readBack _ h hclear).sound .element (by decide))
      (sound_written h' hclear')

theorem simple_expr {value : Expr α} (h : value.WellFormed) (hclear : value.Clear) :
    f.Simple (.expr m value) := by
  intro alternative
  have hrow : IsRow (f.exprText value) (placed f.options.spaceAroundOps .top value).faces := by
    unfold Frame.exprText
    split
    · next m s =>
      split
      · have hspells : Spells afterLiteral _ _ := (spells_docstring s).mono fun _ _ => rfl
        have hfaces : (placed f.options.spaceAroundOps .top (.constant m (.str s))).faces =
            [(.string, s)] := by
          show faces f.options.spaceAroundOps (.constant m (.str s)) = _
          rfl
        rw [hfaces]
        exact ⟨⟨_, _, rfl, by decide⟩, hspells⟩
      · exact isRow_expr .top nofun h
    · exact isRow_expr .top nofun h
  refine ⟨_, hrow.line, ?_⟩
  rw [headLevels, listedLevels_singleton f.options.spaceAroundOps]
  exact asSimple_expr (listed_placed h hclear)

/-! ### Imports -/

/-- Names with points between them. -/
theorem exists_dotted {name : String} (h : IsDotted name) : ∃ a bs, name = dotted a bs ∧
    Spells afterWord name.toList (nameFace a :: dottedFaces bs) ∧ Starts name.toList ∧
      ∀ c ∈ name.toList.head?, isDigit c = false := by
  induction h with
  | @one a ha =>
    refine ⟨a, [], rfl, spells_identifier ha, starts_identifier ha, ?_⟩
    obtain ⟨c, cs, hid, hc, -⟩ := ha.letters
    rw [hid]
    rintro _ ⟨⟩
    rw [Bool.eq_false_iff]
    intro hdigit
    rw [isAlpha_of_isDigit hdigit] at hc
    cases hc
  | @more name b _ hb ih =>
    obtain ⟨a, bs, rfl, hspells, hstarts, hdigit⟩ := ih
    have htext : (dotted a bs ++ "." ++ b).toList = (dotted a bs).toList ++ '.' :: b.toList := by
      rw [String.toList_append, String.toList_append, List.append_assoc]
      rfl
    rw [htext]
    refine ⟨a, bs ++ [b], ?_, ?_, hstarts.append _, ?_⟩
    · rw [dotted, dotted, List.foldl_append]
      rfl
    · have hall := hspells.followed (spells_attr hb) rfl
      simpa [dottedFaces] using hall
    · obtain ⟨c, cs, hcs, -⟩ := hstarts
      rw [hcs] at hdigit ⊢
      exact hdigit

/-- What an imported name is read from. -/
structure AliasAs (rule : Parse String) (a : Alias α) (i : AliasItem) : Prop where
  value : i.value = a.erase
  sound : i.Sound rule
  starts : (front i.name).1 = .identifier
  row : IsRow a.name.toList i.name
  asName : ∀ id ∈ a.asName, IsIdentifier id

theorem exists_dottedItem {a : Alias α} (h : a.WellFormed IsDotted) :
    ∃ i, AliasAs dottedName a i := by
  obtain ⟨b, bs, hname, hspells, hstarts, -⟩ := exists_dotted h.name
  refine ⟨⟨_, a.erase⟩, rfl, ⟨by simp, fun bad rest hrest => ?_⟩, rfl,
    ⟨hstarts, hspells.mono afterWord_of_afterLiteral⟩, h.asName⟩
  show Reads bad dottedName True _ rest fun s => s = a.name
  rw [hname]
  exact reads_dottedName b bs hrest

theorem exists_nameItem {a : Alias α} (h : a.WellFormed IsIdentifier) :
    ∃ i, AliasAs identifier a i := by
  refine ⟨⟨[nameFace a.name], a.erase⟩, rfl, ⟨by simp, fun bad rest _ => ?_⟩, rfl,
    ⟨starts_identifier h.name, (spells_identifier h.name).mono afterWord_of_afterLiteral⟩, h.asName⟩
  refine reads_expect_bind rfl (by nofun) fun token htoken => ?_
  exact reads_pure (congrArg Prod.snd htoken)

section Aliases

variable {rule : Parse String} {named : String → Prop}

theorem AliasAs.isRow {a : Alias α} {i : AliasItem} (h : AliasAs rule a i) :
    IsRow (a.name.toList ++ match a.asName with
      | some id => " as ".toList ++ id.toList
      | none => []) i.faces := by
  rw [AliasItem.faces, h.value]
  have hasName := h.asName
  obtain ⟨m, name, asName⟩ := a
  cases asName with
  | none =>
    show IsRow (name.toList ++ []) (i.name ++ [])
    rw [List.append_nil, List.append_nil]
    exact h.row
  | some id =>
    have hid := (spells_identifier (hasName id rfl)).mono afterWord_of_afterLiteral
    have hspells := spells_between .as rfl h.row.spells hid
    refine ⟨h.row.starts.append _, ?_⟩
    rwa [List.append_assoc] at hspells

/-- Imported names with commas between them. -/
theorem exists_aliasItems (hnamed : ∀ a : Alias α, a.WellFormed named → ∃ i, AliasAs rule a i)
    {names : List (Alias α)} (h : ∀ a ∈ names, a.WellFormed named) :
    ∃ is : List AliasItem, List.Forall₂ (AliasAs rule) names is := by
  induction names with
  | nil => exact ⟨[], .nil⟩
  | cons a names ih =>
    obtain ⟨ha, hnames⟩ := List.forall_mem_cons.mp h
    obtain ⟨i, hi⟩ := hnamed a ha
    obtain ⟨is, his⟩ := ih hnames
    exact ⟨i :: is, .cons hi his⟩

section All

variable {names : List (Alias α)} {is : List AliasItem} (h : List.Forall₂ (AliasAs rule) names is)

include h

theorem isRow_aliases (hsome : names ≠ []) :
    IsRow (Frame.aliases names) (commaFaces (is.map AliasItem.faces)) := by
  refine isRow_commas ?_ (by simpa using hsome)
  rw [List.forall₂_map_left_iff, List.forall₂_map_right_iff]
  exact h.imp fun _ _ hi => hi.isRow

theorem map_aliasValue : is.map AliasItem.value = names.map Alias.erase := by
  induction h with
  | nil => rfl
  | cons hi _ ih => rw [List.map_cons, List.map_cons, hi.value, ih]

theorem forall_aliases : ∀ i ∈ is, i.Sound rule ∧ (front i.name).1 = .identifier := by
  induction h with
  | nil => nofun
  | cons hi _ ih => exact List.forall_mem_cons.mpr ⟨⟨hi.sound, hi.starts⟩, ih⟩

theorem aliasItems_ne_nil (hsome : names ≠ []) : is ≠ [] := by
  rintro rfl
  cases h
  exact hsome rfl

end All

end Aliases

theorem simple_imports {names : List (Alias α)} (hsome : names ≠ [])
    (h : ∀ a ∈ names, a.WellFormed IsDotted) :
    f.Simple (.imports m names) := by
  intro alternative
  obtain ⟨is, his⟩ := exists_aliasItems (fun _ => exists_dottedItem) h
  refine ⟨_, (IsRow.after .imports rfl (isRow_aliases his hsome).spells).line, ?_⟩
  show AsSimple 0 _ _
  rw [Stmt.erase_imports, ← map_aliasValue his]
  exact asSimple_imports (fun i hi => (forall_aliases his i hi).1) (aliasItems_ne_nil his hsome)

/-- All names of a module, or some. -/
theorem exists_importedFaces {names : List (Alias α)} (h : Alias.Imported names) :
    ∃ fs, Spells afterLine (Frame.aliases names) fs ∧ ImportedFaces fs (names.map Alias.erase) := by
  rcases h with ⟨m, rfl⟩ | ⟨hsome, hnames⟩
  · have hstar : Spells afterLine "*".toList [TokenKind.face (.binary .mult)] := by
      refine (spells_binary .mult).mono fun c hc => ?_
      have hcases : c = ' ' ∨ c = '\n' := by simpa [afterLine] using hc
      rcases hcases with rfl | rfl <;> rfl
    have htext : Frame.aliases [⟨m, "*", none⟩] = "*".toList := by
      show commas ["*".toList ++ []] = _
      rw [List.append_nil, commas, List.intercalate_singleton]
    rw [htext]
    exact ⟨_, hstar, .all⟩
  · obtain ⟨is, his⟩ := exists_aliasItems (fun _ => exists_nameItem) hnames
    refine ⟨_, (isRow_aliases his hsome).line.spells, ?_⟩
    rw [← map_aliasValue his]
    exact .some (fun i hi => (forall_aliases his i hi).1) (aliasItems_ne_nil his hsome)
      fun i hi => (forall_aliases his i hi).2

/-- Points in front of a module. -/
theorem spells_points (level : Nat) {ds : List Char} {gs : List Face}
    (h : Spells afterLiteral ds gs)
    (hdigit : ∀ c ∈ ds.head?, isDigit c = false) :
    Spells afterLiteral (List.replicate level '.' ++ ds)
      (List.replicate level (TokenKind.face .dot) ++ gs) := by
  induction level with
  | zero => exact h
  | succ level ih =>
    rw [List.replicate_succ, List.replicate_succ]
    refine spells_dot.append ih fun rest hrest => ?_
    have hlast (c : Char) (hc : c ∈ rest.head?) : isDigit c = false := by
      have hword := (Bool.and_eq_true_iff.mp (hrest c hc)).1
      rw [Bool.eq_false_iff]
      intro hdigit
      simp [afterWord, isAlphaNumeric, hdigit] at hword
    intro c hc
    rw [Bool.not_eq_true']
    cases level with
    | zero =>
      cases ds with
      | nil => exact hlast c hc
      | cons d ds => exact hdigit c hc
    | succ level =>
      cases hc
      rfl

theorem simple_importFrom {module : Option String} {names : List (Alias α)} {level : Nat}
    (hmodule : ∀ s ∈ module, IsDotted s) (hnames : Alias.Imported names)
    (hlevel : module = none → 0 < level) :
    f.Simple (.importFrom m module names level) := by
  intro alternative
  obtain ⟨fs, hspells, hfaces⟩ := exists_importedFaces hnames
  have hname : ∃ o : Option (String × List String), (o.map fun p => dotted p.1 p.2) = module ∧
      Spells afterLiteral (module.getD "").toList (moduleFaces o) ∧
        ∀ c ∈ (module.getD "").toList.head?, isDigit c = false := by
    cases module with
    | none => exact ⟨none, rfl, spells_nil, nofun⟩
    | some s =>
      obtain ⟨a, bs, rfl, hs, -, hdigit⟩ := exists_dotted (hmodule s rfl)
      exact ⟨some (a, bs), rfl, hs.mono afterWord_of_afterLiteral, hdigit⟩
  obtain ⟨o, rfl, hmodule, hdigit⟩ := hname
  have hrow := IsRow.after .from rfl (spells_points level hmodule hdigit)
  have hall := spells_spaced hrow.spells (spells_keyword .imports) rfl hspells
  have hsome (h : o = none) : 0 < level := hlevel (by rw [h, Option.map_none])
  have htext : f.head alternative (.importFrom m (o.map fun p => dotted p.1 p.2) names level) =
      "from ".toList ++
        (List.replicate level '.' ++ ((o.map fun p => dotted p.1 p.2).getD "").toList) ++
        operator true Keyword.imports.spelling ++ Frame.aliases names := by
    rw [← List.append_assoc]
    rfl
  rw [htext]
  refine ⟨_, ⟨?_, hall⟩, ?_⟩
  · rw [List.append_assoc]
    exact hrow.starts.append _
  · have hsimple := asSimple_importFrom hsome hfaces
    show AsSimple 0 _ _
    simpa using hsimple

end Simple

/-! ## The lines of clauses -/

/-- A line is read as a clause that opens a statement. -/
def Opens (cs : List Char) (n : Nat) (g : List (Stmt Unit) → List (Stmt Unit) × Pending) : Prop :=
  ∃ fs, IsRow cs (fs ++ [TokenKind.face .colon]) ∧ ∀ p : Pending, p.Closable →
    AsClause n fs p p.closed g

/-- A line is read as a clause that continues what a block holds. -/
def Continues (cs : List Char) (n : Nat) (p : Pending)
    (g : List (Stmt Unit) → List (Stmt Unit) × Pending) : Prop :=
  ∃ fs, IsRow cs (fs ++ [TokenKind.face .colon]) ∧ AsClause n fs p [] g

section Clauses

variable (f : Frame) {test : Expr α}

theorem isRow_test {s : String} (k : Keyword) (hs : s = k.spelling ++ " ") (h : test.WellFormed) :
    IsRow (s.toList ++ f.expr .element test ++ [':'])
      (TokenKind.face (.keyword k) :: (placed f.options.spaceAroundOps .element test).faces ++
        [TokenKind.face .colon]) :=
  (IsRow.after k hs (isRow_expr .element nofun h).spells).colon

theorem opens_while (h : test.WellFormed) (hclear : test.Clear) :
    Opens ("while ".toList ++ f.expr .element test ++ [':']) (listedLevels .element [test])
      fun body => ([.whileLoop () test.erase body], .none) := by
  rw [listedLevels_singleton f.options.spaceAroundOps]
  exact ⟨_, isRow_test f .while rfl h,
    fun _ => asClause_while ((readBack _ h hclear).sound .element (by decide))⟩

theorem opens_if (h : test.WellFormed) (hclear : test.Clear) :
    Opens ("if ".toList ++ f.expr .element test ++ [':']) (listedLevels .element [test])
      fun body => ([], .conditional fun orelse => .ifElse () test.erase body orelse) := by
  rw [listedLevels_singleton f.options.spaceAroundOps]
  exact ⟨_, isRow_test f .if rfl h,
    fun _ => asClause_if ((readBack _ h hclear).sound .element (by decide))⟩

theorem continues_elif (h : test.WellFormed) (hclear : test.Clear)
    (complete : List (Stmt Unit) → Stmt Unit) :
    Continues ("elif ".toList ++ f.expr .element test ++ [':']) (listedLevels .element [test])
      (.conditional complete)
      fun body => ([],
        .conditional fun orelse => complete [.ifElse () test.erase body orelse]) := by
  rw [listedLevels_singleton f.options.spaceAroundOps]
  exact ⟨_, isRow_test f .elif rfl h,
    asClause_elif ((readBack _ h hclear).sound .element (by decide))⟩

/-- The line of a clause that is nothing but a word. -/
theorem isRow_clauseWord (k : Keyword) :
    IsRow (k.spelling.toList ++ [':']) ([TokenKind.face (.keyword k)] ++ [TokenKind.face .colon]) :=
  (IsRow.word k).colon

theorem opens_try : Opens "try:".toList 0 fun body => ([], .attempt body [] []) :=
  ⟨_, isRow_clauseWord .try, fun _ => asClause_try⟩

theorem continues_else (complete : List (Stmt Unit) → Stmt Unit) :
    Continues ("else".toList ++ [':']) 0 (.conditional complete) fun body =>
      ([complete body], .none) :=
  ⟨_, isRow_clauseWord .else, asClause_else⟩

section Attempt

variable (body₀ : List (Stmt Unit)) {handlers₀ : List (Handler Unit (Expr Unit) (Stmt Unit))}

theorem continues_tryElse (h : handlers₀ ≠ []) :
    Continues ("else".toList ++ [':']) 0 (.attempt body₀ handlers₀ []) fun body =>
      ([], .attempt body₀ handlers₀ body) :=
  ⟨_, isRow_clauseWord .else, asClause_tryElse h⟩

variable (handlers₀) in
theorem continues_finally (orelse₀ : List (Stmt Unit)) :
    Continues ("finally".toList ++ [':']) 0 (.attempt body₀ handlers₀ orelse₀)
      fun body => ([.tryExcept () body₀ handlers₀ orelse₀ body], .none) :=
  ⟨_, isRow_clauseWord .finally, asClause_finally⟩

theorem continues_except {type : Option (Expr α)} {name : Option String}
    (h : Expr.OptionWellFormed type)
    (hid : ∀ id ∈ name, IsIdentifier id) (hname : type = none → name = none)
    (hclear : Expr.OptionClear type)
    (hlast : ∀ h ∈ handlers₀.getLast?, h.type ≠ none) :
    Continues (f.handlerText type name) (listedLevels .element type.toList)
      (.attempt body₀ handlers₀ [])
      fun body => ([],
        .attempt body₀ (handlers₀ ++ [⟨(), type.map Expr.erase, name, body⟩]) []) := by
  have hclause : AsClause _
    (handlerFaces (type.map (placed f.options.spaceAroundOps .element)) name)
      (.attempt body₀ handlers₀ []) [] _ :=
    asClause_except (sound_written h hclear)
      (fun hnone => hname (Option.map_eq_none_iff.mp hnone)) hlast
  rw [toList_placed, ← listedLevels_eq, value_placed] at hclause
  refine ⟨_, ?_, hclause⟩
  cases type with
  | none => exact isRow_clauseWord .except
  | some e =>
    have hrow : IsRow ("except ".toList ++ f.expr .element e) _ :=
      .after .except rfl (isRow_expr .element nofun h).spells
    cases name with
    | none =>
      show IsRow ("except".toList ++ (' ' :: f.expr .element e ++ []) ++ [':'])
        (TokenKind.face (.keyword .except) ::
          ((placed f.options.spaceAroundOps .element e).faces ++ []) ++ _)
      rw [List.append_nil, List.append_nil]
      exact hrow.colon
    | some id =>
      have hid := (spells_identifier (hid id rfl)).mono afterWord_of_afterLiteral
      have hall : IsRow ("except ".toList ++ f.expr .element e ++ " as ".toList ++ id.toList) _ :=
        ⟨(hrow.starts.append _).append _, spells_between .as rfl hrow.spells hid⟩
      rw [List.append_assoc _ " as ".toList] at hall
      exact hall.colon

end Attempt

/-- The targets of a loop, which are operands. -/
theorem sameText_loopParts {ctx : Context} {e t : Expr α} (h : e.withContext? ctx = some t) :
    List.Forall₂ SameText (loopParts e) (loopParts t) := by
  cases e with
  | tuple m elts c =>
    have hsame := sameText h
    obtain ⟨ts, hts, rfl⟩ := Option.map_eq_some_iff.mp h
    rcases sameTexts hts with _ | ⟨ha, _ | ⟨hb, hrest⟩⟩
    · exact .cons hsame .nil
    · exact .cons hsame .nil
    · exact .cons ha (.cons hb hrest)
  | list m elts c =>
    have hsame := sameText h
    obtain ⟨ts, hts, rfl⟩ := Option.map_eq_some_iff.mp h
    exact .cons hsame .nil
  | name | attr | subscript =>
    have hsame := sameText h
    cases h
    exact .cons hsame .nil
  | _ =>
    all_goals cases h

theorem loopTarget_eq (e : Expr α) :
    f.loopTarget e = commas ((loopParts e).map (f.expr .operand)) := by
  have hsingle (e : Expr α) : f.expr .operand e = commas ([e].map (f.expr .operand)) :=
    List.intercalate_singleton.symm
  cases e with
  | tuple m elts ctx =>
    rcases elts with _ | ⟨a, _ | ⟨b, es⟩⟩
    · exact hsingle _
    · exact hsingle _
    · rfl
  | _ => exact hsingle _

theorem loopParts_wellFormed {e : Expr α} (h : e.WellFormed) :
    Expr.AllWellFormed (loopParts e) := by
  have hsingle (e : Expr α) (h : e.WellFormed) : Expr.AllWellFormed [e] := by
    exact ⟨h, trivial⟩
  cases e with
  | tuple m elts ctx =>
    rcases elts with _ | ⟨a, _ | ⟨b, es⟩⟩
    · exact hsingle _ h
    · exact hsingle _ h
    · exact h.1
  | _ => exact hsingle _ h

theorem loopParts_clear {e : Expr α} (h : e.Clear) : Expr.AllClear (loopParts e) := by
  have hsingle (e : Expr α) (h : e.Clear) : Expr.AllClear [e] := by
    exact ⟨h, trivial⟩
  cases e with
  | tuple m elts ctx =>
    rcases elts with _ | ⟨a, _ | ⟨b, es⟩⟩
    · exact hsingle _ h
    · exact hsingle _ h
    · exact h
  | _ => exact hsingle _ h

theorem loopValue_placed {e : Expr α} (h : e.WellFormed) :
    loopValue ((loopParts e).map (placed spaced .operand)) = e.erase := by
  cases e with
  | tuple m elts ctx =>
    obtain ⟨-, rfl⟩ := h
    rcases elts with _ | ⟨a, _ | ⟨b, es⟩⟩
    · rfl
    · rfl
    · rw [Expr.erase_tuple, ← map_value_placed spaced .operand]
      rfl
  | _ => rfl

theorem opens_for {target iter : Expr α} (htarget : target.IsTarget .store)
    (hiter : iter.WellFormed)
    (hclear : target.Clear) (hclear' : iter.Clear) :
    Opens ("for ".toList ++ f.loopTarget target ++ " in ".toList ++ f.expr .top iter ++ [':'])
      (max (listedLevels .operand (loopParts target) - 1) (listedLevels .top [iter]))
      fun body => ([.forLoop () target.erase iter.erase body], .none) := by
  obtain ⟨e, he⟩ := exists_loaded htarget hclear
  have hparts := loopParts_wellFormed he.wellFormed
  have hsame := sameText_loopParts he.made
  have htext : f.loopTarget target = commas ((loopParts e).map (f.expr .operand)) := by
    rw [loopTarget_eq]
    exact congrArg commas (map_expr_sameText hsame _ _)
  rw [listedLevels_sameText hsame, listedLevels_singleton f.options.spaceAroundOps,
    listedLevels_eq f.options.spaceAroundOps, htext]
  have hsome : (loopParts e).map (placed f.options.spaceAroundOps .operand) ≠ [] := by
    unfold loopParts
    split <;> simp
  have hrow := IsRow.after .for rfl (spells_exprs f.options.spaceAroundOps .operand nofun hparts)
  have hiterRow : IsRow (f.expr .top iter) _ := isRow_expr .top nofun hiter
  have hall := spells_between .in rfl hrow.spells hiterRow.spells
  have hoperands : ∀ i ∈ (loopParts e).map (placed f.options.spaceAroundOps .operand),
      AsOperand i.levels i.faces i.value := by
    intro i hi
    obtain ⟨x, hx, rfl⟩ := List.mem_map.mp hi
    exact (readBack_all _ hparts (loopParts_clear he.clear) x hx).onRight
  have hplace : (loopValue
    ((loopParts e).map (placed f.options.spaceAroundOps .operand))).withContext? .store =
      some target.erase := by
    rw [loopValue_placed he.wellFormed, Expr.withContext?_erase, he.made, Option.map_some]
  exact ⟨_, (IsRow.mk ((hrow.starts.append _).append _) hall).colon, fun p hp =>
    asClause_for hsome hoperands hplace (listed_placed hiter hclear') hp⟩

theorem opens_function {name : String} {s : Signature α (Expr α)} (hname : IsIdentifier name)
    (h : s.WellFormed)
    (hclear : Expr.AllClear s.defaults) :
    Opens ("def ".toList ++ name.toList ++ parens (signature f.options.spaceAroundOps s) ++ [':'])
      (listedLevels .element s.defaults) fun body =>
        ([.functionDef () name s.erase body], .none) := by
  obtain ⟨hnamed, hdefaults⟩ := h
  obtain ⟨hfollow, hpush⟩ := push_parameterItems f.options.spaceAroundOps hnamed.defaults
  have hsound := sound_parameterItems hnamed.defaults
    (readBack_all f.options.spaceAroundOps hdefaults hclear)
  have hclause (p : Pending) (hp : p.Closable) :
      AsClause _ (TokenKind.face (.keyword .define) :: nameFace name :: _) p p.closed _ :=
    asClause_function hsound hfollow hp
  rw [hpush, value?_parameterItems hnamed.defaults, ← listedLevels_eq, faces_parameterItems]
    at hclause
  refine ⟨_, ?_, hclause⟩
  have hparameters :=
    spells_parameters hnamed (spells_listed f.options.spaceAroundOps .element (by decide) hdefaults)
  have hspells := (spells_identifier hname).followed (spells_parens hparameters) rfl
  have hrow := IsRow.after .define rfl (hspells.mono fun _ _ => rfl)
  rw [List.append_assoc "def ".toList]
  exact hrow.colon

theorem opens_class {name : String} {bases : List (Expr α)} (hname : IsIdentifier name)
    (h : Expr.AllWellFormed bases) (hclear : Expr.AllClear bases) :
    Opens ("class ".toList ++ name.toList ++
      (if bases.isEmpty then [] else parens (f.exprs .element bases)) ++ [':'])
      (listedLevels .element bases) fun body =>
        ([.classDef () name (bases.map Expr.erase) body], .none) := by
  have hsound : ∀ i ∈ bases.map (placed f.options.spaceAroundOps .element), i.Sound :=
    sound_placed (by decide) (readBack_all _ h hclear)
  have hclause (p : Pending) (hp : p.Closable) :
      AsClause _ (TokenKind.face (.keyword .classes) :: nameFace name :: _) p p.closed _ :=
    asClause_class hsound hp
  rw [← listedLevels_eq, map_value_placed] at hclause
  refine ⟨_, ?_, hclause⟩
  have hspells : Spells afterLiteral
      (name.toList ++ if bases.isEmpty then [] else parens (f.exprs .element bases))
      (nameFace name :: baseFaces (bases.map (placed f.options.spaceAroundOps .element))) := by
    cases bases with
    | nil =>
      rw [List.isEmpty_nil, if_pos rfl, List.append_nil]
      exact (spells_identifier hname).mono afterWord_of_afterLiteral
    | cons b bases =>
      have hbases := spells_exprs f.options.spaceAroundOps .element nofun h
      exact ((spells_identifier hname).followed (spells_parens hbases) rfl).mono fun _ _ => rfl
  have hrow := IsRow.after .classes rfl hspells
  rw [List.append_assoc "class ".toList]
  exact hrow.colon

end Clauses

end Format

end Toolchain
