import Toolchain.Proofs.Token.Forms
import Toolchain.Proofs.Token.Names
import Toolchain.Proofs.Token.Order

/-!
# The calls to the lexer

The lexer finds tokens when it is asked for them. It may be asked which token comes next, to hand it
out, or to hand out all that are left, in any order. However it is asked, it answers as a list
would: the tokens of the text stand in one sequence, the last of which is the end of the input and
is handed out for ever, and what has gone wrong so far are the invalid tokens among those that were
found.

## Main definitions

* `Lexer.Call`, `Lexer.step`: the calls, and how the lexer answers one
* `Lexer.Call.run`: the answers to calls one after the other
* `Lexer.Call.next`: how a list of tokens answers a call
* `Lexer.Ahead`: the tokens that a lexer has left

## Main results

* `Lexer.Awaits.scan`, `Lexer.Ahead.fill`: what a scan does to the tokens that are left
* `Lexer.Serves.step`, `Lexer.Serves.run`: a lexer and a list of tokens answer alike
* `Lexer.isStream_tokenize`: where the end of the input, newlines and indentations stand
* `Lexer.stream_of_calls`: **the token stream is one fixed sequence**
-/

namespace Toolchain.Lexer

open Lexeme

/-! ## Calls -/

/-- A call to the lexer. -/
inductive Call where
  /-- Which token comes next? -/
  | peek
  /-- Hand out the next token. -/
  | read
  /-- Hand out all tokens that are left. -/
  | all
  deriving DecidableEq, Repr

/-- Answers a call. A token that is looked at stays in the queue. -/
def step (l : Lexer) : Call → List Token × Lexer
  | .peek => ([l.peek], l.fill)
  | .read => ([l.read.1], l.read.2)
  | .all => l.all

namespace Call

/-- The answers to some calls, and the state after them. -/
def run {σ : Type} (step : σ → Call → List Token × σ) (s : σ) : List Call → List (List Token) × σ
  | [] => ([], s)
  | call :: calls =>
    let (answer, s) := step s call
    let (answers, s) := run step s calls
    (answer :: answers, s)

/-- A list of tokens answers a call. Its last token is never taken away. -/
def next (ts : List Token) : Call → List Token × List Token
  | .peek => (ts.take 1, ts)
  | .read => (ts.take 1, if ts.length = 1 then ts else ts.tail)
  | .all => (ts, ts.drop (ts.length - 1))

/-- The tokens that were handed out when some calls were answered. -/
def handedOut : List Call → List (List Token) → List Token
  | .peek :: calls, _ :: answers => handedOut calls answers
  | _ :: calls, answer :: answers => answer ++ handedOut calls answers
  | _, _ => []

/-- What a list of tokens hands out is the list with its last token again and again, up to some
place. -/
theorem handedOut_prefix (before : List Token) (e : Token) (calls : List Call) :
    handedOut calls (run next (before ++ [e]) calls).1 <+:
      before ++ List.replicate (calls.length + 1) e := by
  have hmore (before : List Token) (n : Nat) :
      before ++ List.replicate n e <+: before ++ List.replicate (n + 1) e := by
    rw [List.prefix_append_right_inj, List.replicate_succ']
    exact List.prefix_append _ _
  induction calls generalizing before with
  | nil => exact List.nil_prefix
  | cons call calls ih =>
    cases call with
    | peek => exact (ih before).trans (hmore before _)
    | read =>
      cases before with
      | nil => exact List.cons_prefix_cons.mpr ⟨rfl, ih []⟩
      | cons x before =>
        have hne : (x :: before ++ [e]).length ≠ 1 := by simp
        show handedOut (.read :: calls) ([x] :: (run next _ calls).1) <+: _
        rw [if_neg hne]
        exact List.cons_prefix_cons.mpr ⟨rfl, (ih before).trans (hmore before _)⟩
    | all =>
      have hdrop : (before ++ [e]).drop ((before ++ [e]).length - 1) = [] ++ [e] := by simp
      show (before ++ [e]) ++ handedOut calls (run next _ calls).1 <+: _
      rw [hdrop, List.append_assoc, List.prefix_append_right_inj]
      exact List.cons_prefix_cons.mpr ⟨rfl, ih []⟩

end Call

/-! ## What is wrong so far -/

/-- The positions of the invalid tokens among some. -/
def faults (ts : List Token) : List Position := (ts.filter (·.kind = .invalid)).map Token.pos

@[simp] theorem faults_nil : faults [] = [] := rfl

theorem faults_append (ts us : List Token) : faults (ts ++ us) = faults ts ++ faults us := by
  rw [faults, List.filter_append, List.map_append]
  rfl

theorem faults_of_kind_ne {x : Token} (h : x.kind ≠ .invalid) : faults [x] = [] := by
  simp [faults, h]

/-- A lexer that has found more tokens, and has noted what is wrong with them. -/
structure Adds (l l' : Lexer) : Prop where
  exists_found : ∃ found, l'.queue = l.queue ++ found ∧ found ≠ [] ∧
    l'.errors.map LexError.pos = l.errors.map LexError.pos ++ faults found

theorem adds_push (l : Lexer) {x : Lexeme} (h : Form x) : Adds l (l.push x) := by
  refine ⟨_, rfl, List.cons_ne_nil _ _, ?_⟩
  have hfault := h.isSome_fault
  rw [push, List.map_append]
  congr 1
  cases hx : x.fault with
  | none =>
    rw [hx] at hfault
    rw [faults_of_kind_ne (beq_eq_false_iff_ne.mp hfault.symm)]
    rfl
  | some message =>
    rw [hx] at hfault
    have hkind : x.kind = .invalid := beq_iff_eq.mp hfault.symm
    simp [faults, hkind]

/-- Reading an indentation changes only where the lexer stands. -/
theorem indentation_fst (l : Lexer) (blanks : List Char) (hidden : Bool) (cs : List Char) :
    ∃ rest pos, (indentation l blanks hidden cs).1 = { l with rest, pos } := by
  induction cs generalizing l blanks hidden with
  | nil => exact ⟨_, _, rfl⟩
  | cons c rest ih =>
    unfold indentation
    simp only
    split
    · exact ih _ _ _
    split
    · exact ih _ _ _
    split
    · exact ih _ _ _
    split
    · exact ih _ _ _
    split
    · exact ih _ _ _
    · exact ⟨_, _, rfl⟩

/-- A scan finds a token at least. -/
theorem adds_scanFrom (l : Lexer) (cs : List Char) : Adds l (l.scanFrom cs) := by
  fun_induction l.scanFrom cs with
  | case1 l => exact ⟨_, rfl, List.cons_ne_nil _ _, (List.append_nil _).symm⟩
  | case2 l rest ih => exact ⟨ih.exists_found⟩
  | case3 l rest ih => exact ⟨ih.exists_found⟩
  | case4 l rest => exact adds_push l (.slash _ _)
  | case5 l rest => exact adds_push l (.slash _ _)
  | case6 l rest _ _ _ _ _ onward ih => exact ⟨ih.exists_found⟩
  | case7 l rest _ _ next token _ _ _ _ onward hind =>
    obtain ⟨rest', pos, hnext⟩ := indentation_fst { onward with multiLine := false } [] false rest
    have hkind : token.kind = .indentation := by
      have hspec := indentation_spec { onward with multiLine := false } [] false rest
      rw [hind] at hspec
      exact hspec.2
    rw [hind] at hnext
    obtain rfl : next = _ := hnext
    refine ⟨_, rfl, List.cons_ne_nil _ _, ?_⟩
    have hnone : faults [⟨.newLine, "\n", l.pos⟩, token] = [] := by simp [faults, hkind]
    rw [hnone, List.append_nil]
  | case8 l rest _ _ _ _ _ _ onward ih => exact ⟨ih.exists_found⟩
  | case9 l c rest _ _ _ _ onward hc hblank ih => exact ⟨ih.exists_found⟩
  | case10 l c rest => exact adds_push l (form_scan c rest)

/-! ## The tokens that are left -/

/-- Tokens of which the last one, and no other one, is the end of the input. -/
def EndsOnce (ts : List Token) : Prop :=
  ∃ before e, ts = before ++ [e] ∧ e.kind = .finish ∧ ∀ x ∈ before, x.kind ≠ .finish

theorem EndsOnce.prepend {ts us : List Token} (h : EndsOnce us) (hts : ∀ x ∈ ts, x.kind ≠ .finish) :
    EndsOnce (ts ++ us) := by
  obtain ⟨before, e, rfl, he, hbefore⟩ := h
  refine ⟨ts ++ before, e, (List.append_assoc _ _ _).symm, he, fun x hx => ?_⟩
  rcases List.mem_append.mp hx with hx | hx
  · exact hts x hx
  · exact hbefore x hx

theorem endsOnce_tokenize (t : Text) : EndsOnce (tokenize t).1 := by
  obtain ⟨before, e, heq, ⟨he, -⟩, hbefore⟩ := exists_finish_of_tokenize t
  exact ⟨before, e, heq, he, hbefore⟩

/-- The tokens that a lexer has not found yet: those of a text in front of which it stands, or of
the pieces in front of which it stands once it has started. -/
inductive Awaits (l : Lexer) : List Token → Prop where
  | text (t : Text) (hstarted : l.started = false) (hrest : l.rest = t.chars) (hpos : l.pos = {})
      (hdepth : l.depth = 0) : Awaits l (tokenize t).1
  | pieces {bare : Bool} {ps : List Piece} (hstarted : l.started = true)
    (hstands : Stands l.pos bare)
    (hcuts : Cuts l.depth false bare l.rest ps) : Awaits l (render l.pos ps)

/-- The tokens that a lexer has left: those in its queue and those it has not found yet, if the end
of the input is not in the queue. -/
inductive Ahead (l : Lexer) : List Token → Prop where
  | more {coming : List Token} (hqueue : ∀ x ∈ l.queue, x.kind ≠ .finish)
    (hawaits : Awaits l coming) :
      Ahead l (l.queue ++ coming)
  | drained (hqueue : EndsOnce l.queue) : Ahead l l.queue

/-- What is still to be found does not depend on what has been found. -/
theorem Awaits.replace {l : Lexer} {ts : List Token} (h : Awaits l ts) (queue : List Token)
    (last : Token) : Awaits { l with queue, last } ts := by
  cases h with
  | text t hstarted hrest hpos hdepth => exact .text t hstarted hrest hpos hdepth
  | pieces hstarted hstands hcuts => exact .pieces hstarted hstands hcuts

theorem Awaits.endsOnce {l : Lexer} {ts : List Token} (h : Awaits l ts) : EndsOnce ts := by
  cases h with
  | text t => exact endsOnce_tokenize t
  | pieces _ _ hcuts =>
    obtain ⟨before, e, heq, ⟨he, -⟩, hbefore⟩ := exists_finish_of_render hcuts l.pos
    exact ⟨before, e, heq, he, hbefore⟩

theorem Ahead.endsOnce {l : Lexer} {ts : List Token} (h : Ahead l ts) : EndsOnce ts := by
  cases h with
  | more hqueue hawaits => exact hawaits.endsOnce.prepend hqueue
  | drained hqueue => exact hqueue

/-- How much a lexer has left to scan. -/
def size (l : Lexer) : Nat := l.rest.length + if l.started then 0 else 1

/-- The end of the input has been found, or less is left to scan than before. -/
def Advances (l l' : Lexer) : Prop := l'.isDrained = true ∨ l'.size < l.size

theorem isDrained_of_endsOnce {l : Lexer} (h : EndsOnce l.queue) : l.isDrained = true := by
  obtain ⟨before, e, heq, he, -⟩ := h
  simp [isDrained, heq, he]

/-- What is found in front of pieces is what they have. -/
theorem Finds.ahead {l l' : Lexer} {size : Nat} {ps : List Piece} (h : Finds l l' size ps)
    (hqueue : l.queue = []) (hstarted : l'.started = true) :
    Ahead l' (render l.pos ps) ∧ (l'.isDrained = true ∨ l'.rest.length < size) := by
  cases h with
  | finish t hfound hkind hrender =>
    rw [hqueue, List.nil_append] at hfound
    have hends : EndsOnce l'.queue := ⟨[], t, hfound, hkind, List.forall_mem_nil _⟩
    rw [hrender, ← hfound]
    exact ⟨.drained hends, .inl (isDrained_of_endsOnce hends)⟩
  | more found bare ps' hfound hkind hrender hstands hcuts hsize =>
    rw [hqueue, List.nil_append] at hfound
    rw [hrender, ← hfound]
    exact ⟨.more (hfound ▸ hkind) (.pieces hstarted hstands hcuts), .inr hsize⟩

/-- The first scan reads the indentation of the first line, and goes on if there is none. -/
theorem ahead_scan_text {l : Lexer} {t : Text} (hstarted : l.started = false)
    (hrest : l.rest = t.chars)
    (hpos : l.pos = {}) (hdepth : l.depth = 0) (hqueue : l.queue = []) :
    Ahead l.scan (tokenize t).1 ∧ Adds l l.scan ∧ Advances l l.scan := by
  have hcuts : Cuts 0 true true t.chars (Lexer.pieces t) := cuts_cut 0 0 true true t.chars
  have hstands : Stands ({ l with started := true } : Lexer).pos true := by
    show Stands l.pos true
    rw [hpos]
    exact ⟨Nat.le_refl 1, by simp⟩
  obtain ⟨rest, pos, bare, ps, heq, hrender, hstands', hcuts', hle⟩ :=
    indentation_cuts hcuts rfl rfl { l with started := true } [] hstands
  rw [← hrest] at heq hle
  have hscan {next : Lexer} {token : Token}
      (hmargin : indentation { l with started := true } [] false l.rest = (next, token)) :
      l.scan = if token.value.isEmpty then next.scanFrom next.rest
        else { next with queue := next.queue ++ [token] } := by
    rw [scan, if_neg (by rw [hstarted]; exact Bool.false_ne_true), hmargin]
  have hsize : l.size = l.rest.length + 1 := by rw [size, hstarted]; rfl
  have hscan := hscan heq
  simp only [hpos] at hscan hrender
  have hkind : (margin [] {} (Lexer.pieces t)).kind = .indentation := margin_kind _ _ _
  rw [tokenize_eq_tokensOf, tokensOf, hrender, hscan]
  generalize margin [] {} (Lexer.pieces t) = first at hkind ⊢
  by_cases hempty : first.value.isEmpty = true
  · rw [if_pos hempty, if_pos hempty, List.nil_append]
    obtain ⟨hstarted', hfinds⟩ :=
      scanFrom_cuts hcuts' rfl { l with rest, pos, started := true } hdepth hstands'
    obtain ⟨hahead, hadvances⟩ := hfinds.ahead hqueue hstarted'
    refine ⟨hahead, ⟨(adds_scanFrom _ rest).exists_found⟩, hadvances.imp_right fun hlt => ?_⟩
    rw [hsize, size, hstarted']
    exact Nat.lt_of_lt_of_le hlt (Nat.le_succ_of_le hle)
  · rw [if_neg hempty, if_neg hempty, hqueue, List.nil_append]
    have hmore : ∀ x ∈ [first], x.kind ≠ .finish := by
      intro x hx
      rw [List.mem_singleton.mp hx, hkind]
      decide
    refine ⟨.more hmore (.pieces rfl hstands' (by rw [hdepth]; exact hcuts')),
      ⟨[first], ?_⟩, .inr ?_⟩
    · rw [hqueue, faults_of_kind_ne (by rw [hkind]; decide), List.append_nil]
      exact ⟨rfl, List.cons_ne_nil _ _, rfl⟩
    · rw [hsize]
      exact Nat.lt_succ_of_le hle

/-- **A scan** finds some of the tokens that a lexer with an empty queue has left. -/
theorem Awaits.scan {l : Lexer} {ts : List Token} (h : Awaits l ts) (hqueue : l.queue = []) :
    Ahead l.scan ts ∧ Adds l l.scan ∧ Advances l l.scan := by
  cases h with
  | text t hstarted hrest hpos hdepth => exact ahead_scan_text hstarted hrest hpos hdepth hqueue
  | pieces hstarted hstands hcuts =>
    have hscan : l.scan = l.scanFrom l.rest := by rw [Lexer.scan, if_pos hstarted]
    obtain ⟨hstarted', hfinds⟩ := scanFrom_cuts hcuts rfl l rfl hstands
    obtain ⟨hahead, hadvances⟩ := hfinds.ahead hqueue (hstarted'.trans hstarted)
    rw [hscan]
    refine ⟨hahead, adds_scanFrom l l.rest, hadvances.imp_right fun hlt => ?_⟩
    rw [size, size, hstarted', hstarted]
    exact hlt

/-- A lexer with a token in its queue. -/
theorem Ahead.fill {l : Lexer} {ts : List Token} (h : Ahead l ts) :
    Ahead l.fill ts ∧ l.fill.queue ≠ [] ∧ ∃ found, l.fill.queue = l.queue ++ found ∧
      l.fill.errors.map LexError.pos = l.errors.map LexError.pos ++ faults found := by
  unfold Lexer.fill
  by_cases hqueue : l.queue = []
  · rw [if_pos (List.isEmpty_iff.mpr hqueue)]
    cases h with
    | more _ hawaits =>
      obtain ⟨hahead, ⟨found, hfound, hne, herrors⟩, -⟩ := hawaits.scan hqueue
      rw [hqueue, List.nil_append]
      refine ⟨hahead, ?_, found, ?_, herrors⟩
      · rwa [hfound, hqueue]
      · rwa [hqueue] at hfound
    | drained hends =>
      obtain ⟨before, e, heq, -⟩ := hends
      rw [hqueue] at heq
      exact absurd heq (by simp)
  · rw [if_neg fun h => hqueue (List.isEmpty_iff.mp h)]
    exact ⟨h, hqueue, [], (List.append_nil _).symm, (List.append_nil _).symm⟩

/-- All tokens that are left. -/
theorem Ahead.drainWithin {n : Nat} {l : Lexer} {ts : List Token} (h : Ahead l ts)
    (hn : l.isDrained = true ∨ l.size < n) :
    (drainWithin n l).1 = ts ∧ ∃ coming, ts = l.queue ++ coming ∧
      (drainWithin n l).2.errors.map LexError.pos = l.errors.map LexError.pos ++ faults coming := by
  induction n generalizing l ts with
  | zero =>
    cases h with
    | more hqueue => simp [isDrained_eq_false hqueue] at hn
    | drained => exact ⟨rfl, [], (List.append_nil _).symm, (List.append_nil _).symm⟩
  | succ n ih =>
    cases h with
    | drained hends =>
      rw [drainWithin_drained _ (isDrained_of_endsOnce hends)]
      exact ⟨rfl, [], (List.append_nil _).symm, (List.append_nil _).symm⟩
    | more hqueue hawaits =>
      rename_i coming
      have hawaits' : Awaits { l with queue := [] } coming := hawaits.replace [] l.last
      have hnot := isDrained_eq_false hqueue
      obtain ⟨hahead, ⟨found, hfound, -, herrors⟩, hadvances⟩ := hawaits'.scan rfl
      have hsize : (Lexer.size { l with queue := [] }) = l.size := rfl
      obtain ⟨htokens, coming', hcoming, herrors'⟩ := ih hahead (hadvances.imp_right fun hlt => by
        rw [hnot] at hn
        have := hn.resolve_left Bool.false_ne_true
        omega)
      rw [Lexer.drainWithin, hnot, if_neg Bool.false_ne_true]
      refine ⟨congrArg (l.queue ++ ·) htokens, coming, rfl, ?_⟩
      show (Lexer.drainWithin n _).2.errors.map LexError.pos = _
      rw [herrors', herrors, hcoming, hfound, List.nil_append, faults_append, List.append_assoc]

/-! ## A lexer and a list of tokens -/

theorem Ahead.queue_prefix {l : Lexer} {ts : List Token} (h : Ahead l ts) : l.queue <+: ts := by
  cases h with
  | more => exact List.prefix_append _ _
  | drained => exact List.prefix_refl _

/-- The token that comes next is the first one that is left. -/
theorem Ahead.take_one {l : Lexer} {ts : List Token} (h : Ahead l ts) : ts.take 1 = [l.peek] := by
  obtain ⟨hfill, hne, -⟩ := h.fill
  obtain ⟨x, queue, hqueue⟩ := List.exists_cons_of_ne_nil hne
  obtain ⟨more, rfl⟩ := hfill.queue_prefix
  rw [peek, hqueue]
  rfl

/-- A lexer that has handed out some tokens of a sequence, has the other ones left, and has noted
what is wrong with those that it has found. -/
structure Serves (ts : List Token) (l : Lexer) (left : List Token) : Prop where
  ahead : Ahead l left
  exists_passed : ∃ passed, ts = passed ++ left ∧
    l.errors.map LexError.pos = faults (passed ++ l.queue)

variable {ts left : List Token} {l : Lexer}

theorem serves_start (t : Text) : Serves (tokenize t).1 (start t) (tokenize t).1 where
  ahead := .more (List.forall_mem_nil _) (.text t rfl rfl rfl rfl)
  exists_passed := ⟨[], rfl, rfl⟩

theorem Serves.fill (h : Serves ts l left) : Serves ts l.fill left := by
  obtain ⟨hahead, -, found, hfound, herrors⟩ := h.ahead.fill
  obtain ⟨passed, hts, hpassed⟩ := h.exists_passed
  refine ⟨hahead, passed, hts, ?_⟩
  rw [herrors, hpassed, hfound, ← faults_append, List.append_assoc]

/-- A token is handed out unless it is the end of the input. -/
theorem Serves.read (h : Serves ts l left) :
    Serves ts l.read.2 (if left.length = 1 then left else left.tail) := by
  obtain ⟨x, queue, hqueue⟩ := List.exists_cons_of_ne_nil h.ahead.fill.2.1
  have hread : l.read.2 = { l.fill with
      queue := if x.kind = .finish then x :: queue else queue
      last := x } := by
    rw [Lexer.read, peek, hqueue]
    rfl
  obtain ⟨hahead, passed, hts, herrors⟩ := h.fill
  rw [hread]
  generalize l.fill = filled at *
  rw [hqueue] at herrors
  have hpassed : passed ++ x :: queue = (passed ++ [x]) ++ queue := by simp
  cases hahead with
  | more hnone hawaits =>
    rename_i coming
    rw [hqueue] at hnone hts
    have hkind : x.kind ≠ .finish := hnone x List.mem_cons_self
    obtain ⟨before, e, rfl, -⟩ := hawaits.endsOnce
    have hlong : (filled.queue ++ (before ++ [e])).length ≠ 1 := by simp [hqueue]
    rw [if_neg hkind, if_neg hlong, hqueue]
    refine ⟨.more (fun y hy => hnone y (List.mem_cons_of_mem _ hy)) (hawaits.replace queue x),
      passed ++ [x], ?_, hpassed ▸ herrors⟩
    rw [hts]
    simp
  | drained hends =>
    rw [hqueue] at hends hts ⊢
    obtain ⟨before, e, heq, he, hbefore⟩ := hends
    cases before with
    | nil =>
      obtain ⟨rfl, rfl⟩ : x = e ∧ queue = [] := by simpa using heq
      rw [if_pos he, if_pos (List.length_singleton)]
      exact ⟨.drained ⟨[], x, rfl, he, List.forall_mem_nil _⟩, passed, hts, herrors⟩
    | cons y before =>
      obtain ⟨rfl, rfl⟩ : x = y ∧ queue = before ++ [e] := by simpa using heq
      have hkind : x.kind ≠ .finish := hbefore x List.mem_cons_self
      rw [if_neg hkind, if_neg (by simp)]
      refine ⟨.drained ⟨before, e, rfl, he, fun y hy => hbefore y (List.mem_cons_of_mem _ hy)⟩,
        passed ++ [x], ?_, hpassed ▸ herrors⟩
      rw [hts]
      simp

/-- All tokens are handed out, and the end of the input stays. -/
theorem Serves.all (h : Serves ts l left) :
    l.all.1 = left ∧ Serves ts l.all.2 (left.drop (left.length - 1)) := by
  have hsize : l.size < l.rest.length + 2 := by
    unfold size
    split <;> omega
  obtain ⟨htokens, coming, hcoming, herrors⟩ := h.ahead.drainWithin (.inr hsize)
  obtain ⟨before, e, hleft, he, hbefore⟩ := h.ahead.endsOnce
  obtain ⟨passed, hts, hpassed⟩ := h.exists_passed
  have hlast : (left.getLastD ⟨.finish, "", (Lexer.drainWithin (l.rest.length + 2) l).2.pos⟩) =
      e := by
    rw [hleft]
    simp
  have hall : l.all = (left, { (Lexer.drainWithin (l.rest.length + 2) l).2 with
      queue := [e]
      last := e }) := by
    rw [Lexer.all, ← hlast, ← htokens]
  have hdrop : left.drop (left.length - 1) = [e] := by
    rw [hleft]
    simp
  rw [hall, hdrop]
  refine ⟨rfl, .drained ⟨[], e, rfl, he, List.forall_mem_nil _⟩, passed ++ before, ?_, ?_⟩
  · rw [hts, hleft, List.append_assoc]
  · show (Lexer.drainWithin (l.rest.length + 2) l).2.errors.map LexError.pos = _
    rw [herrors, hpassed, ← faults_append, List.append_assoc, ← hcoming, hleft, List.append_assoc]

/-- **A call** is answered by a lexer as by the list of the tokens it has left. -/
theorem Serves.step (h : Serves ts l left) (call : Call) :
    (l.step call).1 = (Call.next left call).1 ∧
      Serves ts (l.step call).2 (Call.next left call).2 := by
  cases call with
  | peek => exact ⟨h.ahead.take_one.symm, h.fill⟩
  | read => exact ⟨h.ahead.take_one.symm, h.read⟩
  | all => exact h.all

/-- **Calls** are answered by a lexer as by the list of the tokens it has left. -/
theorem Serves.run (h : Serves ts l left) (calls : List Call) :
    (Call.run Lexer.step l calls).1 = (Call.run Call.next left calls).1 ∧
      Serves ts (Call.run Lexer.step l calls).2 (Call.run Call.next left calls).2 := by
  induction calls generalizing l left with
  | nil => exact ⟨rfl, h⟩
  | cons call calls ih =>
    obtain ⟨hanswer, hstep⟩ := h.step call
    obtain ⟨hanswers, hrun⟩ := ih hstep
    exact ⟨congrArg₂ List.cons hanswer hanswers, hrun⟩

/-! ## Newlines and indentations -/

/-- Tokens in which an indentation follows every newline, and stands nowhere else. -/
inductive Paired : List Token → Prop where
  | nil : Paired []
  | other {x : Token} {ts : List Token} (hx : x.kind ≠ .newLine ∧ x.kind ≠ .indentation)
      (h : Paired ts) : Paired (x :: ts)
  | line {x y : Token} {ts : List Token} (hx : x.kind = .newLine) (hy : y.kind = .indentation)
      (h : Paired ts) : Paired (x :: y :: ts)

theorem paired_render {depth : Nat} {front bare : Bool} {cs : List Char} {ps : List Piece}
    (h : Cuts depth front bare cs ps) (p : Position) : Paired (render p ps) := by
  induction h generalizing p with
  | nil => exact .other ⟨nofun, nofun⟩ .nil
  | joined _ _ _ _ ih | enclosed _ _ _ ih | blank _ _ _ ih | hidden _ _ ih => exact ih _
  | @ending front bare rest ps _ ih =>
    cases !front && !bare with
    | false => exact ih _
    | true => exact .line rfl (margin_kind _ _ _) (ih _)
  | @token _ _ c rest _ _ _ _ _ _ _ ih =>
    refine .other ?_ (ih _)
    have hkind := (taken_next c rest).kind
    constructor <;> (intro heq; rw [show (next c rest).kind = _ from heq] at hkind; cases hkind)

/-- Paired tokens do not begin with an indentation. -/
theorem Paired.head_ne (h : Paired ts) : ∀ x ∈ ts.head?, x.kind ≠ .indentation := by
  intro x hx
  cases h with
  | nil => cases hx
  | other hkind =>
    obtain rfl := Option.some.inj hx
    exact hkind.2
  | line hkind =>
    obtain rfl := Option.some.inj hx
    rw [hkind]
    exact nofun

/-- What stands beside a token in paired ones. -/
theorem Paired.beside {before after : List Token} {x : Token} (h : Paired ts)
    (hts : ts = before ++ x :: after) :
    (x.kind = .newLine → ∃ y more, after = y :: more ∧ y.kind = .indentation ∧
      ∀ z ∈ more.head?, z.kind ≠ .indentation) ∧
    (x.kind = .indentation → ∃ z, before.getLast? = some z ∧ z.kind = .newLine) := by
  have hlast {z : Token} {before : List Token} (hz : before.getLast? = some z) (b : Token) :
      (b :: before).getLast? = some z := by
    rw [List.getLast?_cons, hz]
    rfl
  induction h generalizing before with
  | nil => simp at hts
  | @other w ts hw h ih =>
    cases before with
    | nil =>
      obtain ⟨rfl, rfl⟩ := List.cons.inj hts
      exact ⟨fun heq => absurd heq hw.1, fun heq => absurd heq hw.2⟩
    | cons b before =>
      obtain ⟨hnext, hprevious⟩ := ih (List.cons.inj hts).2
      refine ⟨hnext, fun heq => ?_⟩
      obtain ⟨z, hz, hkind⟩ := hprevious heq
      exact ⟨z, hlast hz b, hkind⟩
  | @line w v ts hw hv h ih =>
    rcases before with _ | ⟨b, _ | ⟨b', before⟩⟩
    · obtain ⟨rfl, rfl⟩ := List.cons.inj hts
      exact ⟨fun _ => ⟨v, ts, rfl, hv, h.head_ne⟩, fun heq => absurd (hw.symm.trans heq) nofun⟩
    · obtain ⟨rfl, hafter⟩ := List.cons.inj hts
      obtain ⟨rfl, rfl⟩ := List.cons.inj hafter
      exact ⟨fun heq => absurd (hv.symm.trans heq) nofun, fun _ => ⟨w, rfl, hw⟩⟩
    · obtain ⟨rfl, hafter⟩ := List.cons.inj hts
      obtain ⟨rfl, hmore⟩ := List.cons.inj hafter
      obtain ⟨hnext, hprevious⟩ := ih hmore
      refine ⟨hnext, fun heq => ?_⟩
      obtain ⟨z, hz, hkind⟩ := hprevious heq
      exact ⟨z, hlast (hlast hz v) w, hkind⟩

/-! ## The stream -/

/-- The tokens of a text: the end of the input is the last one and no other one, and an indentation
follows every newline and stands nowhere else, unless it is the first token and has a blank. -/
structure IsStream (ts : List Token) : Prop where
  endsOnce : EndsOnce ts
  beside : ∀ before x after, ts = before ++ x :: after →
    (x.kind = .newLine → ∃ y more, after = y :: more ∧ y.kind = .indentation ∧
      ∀ z ∈ more.head?, z.kind ≠ .indentation) ∧
    (x.kind = .indentation → before = [] ∧ x.value ≠ "" ∨
      ∃ z, before.getLast? = some z ∧ z.kind = .newLine)

theorem isStream_tokenize (t : Text) : IsStream (tokenize t).1 where
  endsOnce := endsOnce_tokenize t
  beside := by
    intro before x after hts
    have hcuts : Cuts 0 true true t.chars (pieces t) := cuts_cut 0 0 true true t.chars
    have hpaired : Paired (render {} (pieces t)) := paired_render hcuts {}
    rw [tokenize_eq_tokensOf, tokensOf] at hts
    by_cases hempty : (margin [] {} (pieces t)).value.isEmpty = true
    · rw [if_pos hempty, List.nil_append] at hts
      obtain ⟨hnext, hprevious⟩ := hpaired.beside hts
      exact ⟨hnext, fun hkind => .inr (hprevious hkind)⟩
    rw [if_neg hempty, List.singleton_append] at hts
    have hkind : (margin [] {} (pieces t)).kind = .indentation := margin_kind _ _ _
    cases before with
    | nil =>
      obtain ⟨rfl, rfl⟩ := List.cons.inj hts
      refine ⟨fun heq => absurd (hkind.symm.trans heq) (by decide), fun _ => .inl ⟨rfl, ?_⟩⟩
      simpa using hempty
    | cons b before =>
      obtain ⟨rfl, hafter⟩ := List.cons.inj hts
      obtain ⟨hnext, hprevious⟩ := hpaired.beside hafter
      refine ⟨hnext, fun heq => .inr ?_⟩
      obtain ⟨z, hz, hz'⟩ := hprevious heq
      refine ⟨z, ?_, hz'⟩
      rw [List.getLast?_cons, hz]
      rfl

/-- **The token stream is one fixed sequence.** In it the end of the input is last, an indentation
follows each newline, and stands nowhere else unless the text begins with blanks. However the lexer
is called, it answers as the list of the tokens of the text would. What it hands out goes on along
the stream, with the end of the input again and again, and what it shows is what it hands out next.
What has gone wrong are the invalid tokens among those it has handed out and those in its queue,
which come next. -/
theorem stream_of_calls (t : Text) :
    IsStream (tokenize t).1 ∧ ∀ calls : List Call,
      let stream := (tokenize t).1
      let (answers, l) := Call.run step (start t) calls
      let left := (Call.run Call.next stream calls).2
      answers = (Call.run Call.next stream calls).1 ∧
      (∃ e, stream.getLast? = some e ∧ e.kind = .finish ∧
        Call.handedOut calls answers <+: stream ++ List.replicate calls.length e) ∧
      l.read.1 = l.peek ∧ l.fill.read.1 = l.peek ∧
      ∃ passed, stream = passed ++ left ∧ l.queue <+: left ∧
        l.errors.map LexError.pos = faults (passed ++ l.queue) := by
  refine ⟨isStream_tokenize t, fun calls => ?_⟩
  obtain ⟨hanswers, hserves⟩ := (serves_start t).run calls
  obtain ⟨before, e, heq, he, -⟩ := endsOnce_tokenize t
  obtain ⟨passed, hts, herrors⟩ := hserves.exists_passed
  refine ⟨hanswers, ⟨e, ?_, he, ?_⟩, rfl, ?_, passed, hts, hserves.ahead.queue_prefix, herrors⟩
  · rw [heq, List.getLast?_append]
    rfl
  · rw [hanswers, heq, List.append_assoc]
    exact Call.handedOut_prefix before e calls
  · have hfill := hserves.fill.ahead.take_one
    rw [hserves.ahead.take_one] at hfill
    exact (List.cons.inj hfill).1.symm

end Toolchain.Lexer
