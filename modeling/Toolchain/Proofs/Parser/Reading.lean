import Toolchain.Parser.Expression
import Toolchain.Proofs.Parser.Yields
import Toolchain.Proofs.Token.Spelling

/-!
# What a rule of the grammar reads

A statement about a rule of the grammar says which tokens it reads, in front of whatever follows
them, and what it makes of them. Positions and the arena are left out. A rule may also fail on these
tokens, so such a statement has a condition under which the rule gets through, and a sort of fault
in which it ends otherwise: both directions are carried along, and the condition of a sequence of
rules is the conjunction of theirs.

## Main definitions

* `ParseState.faces`: the tokens that are left, without their positions
* `Parse.Ends`: how a run ends if a condition holds, and how if it does not
* `Parse.Reads`: a rule reads some tokens in front of others
* `Parse.Loops`: the rounds of a loop read some tokens

## Main results

* `Parse.Reads.bind`: one rule after another
* `Parse.reads_iterate`: a loop reads what its rounds read
-/

namespace Toolchain

/-- The tokens that are left, without their positions. -/
def ParseState.faces (s : ParseState) : List Face := s.tokens.map Token.face

namespace Parse

variable {α β σ : Type}

/-- The first of some faces. Where there are none the input ends. -/
def front (fs : List Face) : Face := fs.headD (.finish, "")

/-- A run has a result with a property and leaves some faces if something fits, and otherwise ends
in a fault of some sort. -/
structure Ends (bad : Fault → Prop) (fits : Prop) (rest : List Face) (Q : α → Prop)
    (r : Except Fault (α × ParseState)) : Prop where
  ok : fits → ∃ a s, r = .ok (a, s) ∧ s.faces = rest ∧ Q a
  fault : ¬fits → ∃ f, r = .error f ∧ bad f

/-- A rule reads some faces in front of others. -/
def Reads (bad : Fault → Prop) (p : Parse α) (fits : Prop) (fs rest : List Face) (Q : α → Prop) :
    Prop :=
  ∀ s : ParseState, s.faces = fs ++ rest → Ends bad fits rest Q (StateT.run p s)

variable {bad : Fault → Prop} {p : Parse α} {f : α → Parse β} {F G : Prop}
  {fs gs rest : List Face} {x : Face} {Q : β → Prop} {R : α → Prop}

theorem face_next (s : ParseState) : s.next.face = front s.faces := by
  unfold ParseState.next ParseState.faces front
  cases s.tokens <;> rfl

theorem Reads.congr (h : Reads bad p F fs rest R) (hfits : F ↔ G) : Reads bad p G fs rest R := by
  rwa [propext hfits] at h

theorem Reads.imp {R' : α → Prop} (h : Reads bad p F fs rest R) (hR : ∀ a, R a → R' a) :
    Reads bad p F fs rest R' := by
  intro s hs
  obtain ⟨hok, hfault⟩ := h s hs
  refine ⟨fun hF => ?_, hfault⟩
  obtain ⟨a, s', hrun, hs', ha⟩ := hok hF
  exact ⟨a, s', hrun, hs', hR a ha⟩

theorem reads_pure {a : α} (h : R a) : Reads bad (pure a) True [] rest R :=
  fun s hs => ⟨fun _ => ⟨a, s, rfl, hs, h⟩, fun h => absurd trivial h⟩

/-- A rule after another one. -/
theorem Reads.bind (hp : Reads bad p F fs (gs ++ rest) R)
    (hf : ∀ a, R a → Reads bad (f a) G gs rest Q) :
    Reads bad (p >>= f) (F ∧ G) (fs ++ gs) rest Q := by
  intro s hs
  rw [List.append_assoc] at hs
  obtain ⟨hok, hfault⟩ := hp s hs
  rw [StateT.run_bind]
  by_cases hF : F
  · obtain ⟨a, s', hrun, hs', ha⟩ := hok hF
    obtain ⟨hok', hfault'⟩ := hf a ha s' hs'
    rw [hrun]
    exact ⟨fun h => hok' h.2, fun h => hfault' fun hG => h ⟨hF, hG⟩⟩
  · obtain ⟨e, hrun, he⟩ := hfault hF
    rw [hrun]
    exact ⟨fun h => absurd h.1 hF, fun _ => ⟨e, rfl, he⟩⟩

/-- A rule after one that fits. -/
theorem Reads.next (hp : Reads bad p True fs (gs ++ rest) R)
    (hf : ∀ a, R a → Reads bad (f a) G gs rest Q) : Reads bad (p >>= f) G (fs ++ gs) rest Q :=
  (hp.bind hf).congr (and_iff_right trivial)

/-- A rule after one that reads nothing. -/
theorem Reads.silent (hp : Reads bad p True [] (fs ++ rest) R)
    (hf : ∀ a, R a → Reads bad (f a) G fs rest Q) : Reads bad (p >>= f) G fs rest Q :=
  hp.next hf

/-- A rule that reads nothing, after another one. -/
theorem Reads.last (hp : Reads bad p F fs rest R)
    (hf : ∀ a, R a → Reads bad (f a) True [] rest Q) : Reads bad (p >>= f) F fs rest Q := by
  have hnothing : Reads bad p F fs ([] ++ rest) R := hp
  have hboth := (hnothing.bind hf).congr (and_iff_left trivial)
  rwa [List.append_nil] at hboth

/-- A rule after which nothing is read. -/
theorem Reads.map (hp : Reads bad p F fs rest R) {g : α → β} (hg : ∀ a, R a → Q (g a)) :
    Reads bad (g <$> p) F fs rest Q := by
  intro s hs
  obtain ⟨hok, hfault⟩ := hp s hs
  rw [StateT.run_map]
  refine ⟨fun hF => ?_, fun hF => ?_⟩
  · obtain ⟨a, s', hrun, hs', ha⟩ := hok hF
    rw [hrun]
    exact ⟨g a, s', rfl, hs', hg a ha⟩
  · obtain ⟨e, hrun, he⟩ := hfault hF
    rw [hrun]
    exact ⟨e, rfl, he⟩

/-- A rule that ends in a fault whatever it reads. -/
theorem reads_fault {p : Parse α} (h : ∀ s, ∃ e, StateT.run p s = .error e ∧ bad e) (hF : ¬F) :
    Reads bad p F fs rest R :=
  fun s _ => ⟨fun h => absurd h hF, fun _ => h s⟩

/-! ## Single steps -/

theorem reads_peek_bind {f : Token → Parse β}
    (h : ∀ t, t.face = front (fs ++ rest) → Reads bad (f t) F fs rest Q) :
    Reads bad (peek >>= f) F fs rest Q := by
  intro s hs
  exact h s.next (by rw [face_next, hs]) s hs

theorem reads_peekKind_bind {f : TokenKind → Parse β}
    (h : Reads bad (f (front (fs ++ rest)).1) F fs rest Q) :
    Reads bad (peekKind >>= f) F fs rest Q := by
  intro s hs
  have hkind : s.next.kind = (front (fs ++ rest)).1 := by rw [← hs, ← face_next]; rfl
  rw [← hkind] at h
  exact h s hs

theorem run_advance {s : ParseState} (h : s.faces = x :: fs) (hx : x.1 ≠ .finish) :
    ∃ s', StateT.run advance s = .ok (s.next, s') ∧ s'.faces = fs := by
  have hkind : s.next.kind ≠ .finish := by
    have hface : s.next.face = x := by rw [face_next, h]; rfl
    rw [← hface] at hx
    exact hx
  refine ⟨{ s with tokens := s.tokens.drop 1 }, ?_, ?_⟩
  · unfold advance
    rw [StateT.run_bind, run_peek]
    show StateT.run (if s.next.kind = .finish then _ else _) s = _
    rw [if_neg hkind]
    rfl
  · show (s.tokens.drop 1).map Token.face = fs
    rw [List.map_drop]
    show s.faces.drop 1 = fs
    rw [h]
    rfl

theorem reads_advance_bind {f : Token → Parse β} (hx : x.1 ≠ .finish)
    (h : ∀ t, t.face = x → Reads bad (f t) F fs rest Q) :
    Reads bad (advance >>= f) F (x :: fs) rest Q := by
  intro s hs
  obtain ⟨s', hrun, hs'⟩ := run_advance hs hx
  rw [StateT.run_bind, hrun]
  exact h s.next (by rw [face_next, hs]; rfl) s' hs'

theorem reads_check_bind {kind : TokenKind} {f : Bool → Parse β}
    (h : Reads bad (f (decide ((front (fs ++ rest)).1 = kind))) F fs rest Q) :
    Reads bad (check kind >>= f) F fs rest Q :=
  reads_peekKind_bind (f := fun k => f (decide (k = kind))) h

theorem reads_check_pos {kind : TokenKind} {f : Bool → Parse β}
    (hkind : (front (fs ++ rest)).1 = kind)
    (h : Reads bad (f true) F fs rest Q) : Reads bad (check kind >>= f) F fs rest Q :=
  reads_check_bind (by rwa [decide_eq_true hkind])

theorem reads_check_neg {kind : TokenKind} {f : Bool → Parse β}
    (hkind : (front (fs ++ rest)).1 ≠ kind)
    (h : Reads bad (f false) F fs rest Q) : Reads bad (check kind >>= f) F fs rest Q :=
  reads_check_bind (by rwa [decide_eq_false hkind])

theorem reads_accept_pos {kind : TokenKind} {f : Bool → Parse β} (hkind : x.1 = kind)
    (hfinish : kind ≠ .finish) (h : Reads bad (f true) F fs rest Q) :
    Reads bad (accept kind >>= f) F (x :: fs) rest Q := by
  intro s hs
  have hnext : s.next.kind = kind := by
    have hface : s.next.face = x := by rw [face_next, hs]; rfl
    rw [← hkind, ← hface]
    rfl
  rw [run_accept_bind hnext]
  exact reads_advance_bind (f := fun _ => f true) (hkind ▸ hfinish) (fun _ _ => h) s hs

theorem reads_accept_neg {kind : TokenKind} {f : Bool → Parse β}
    (hkind : (front (fs ++ rest)).1 ≠ kind)
    (h : Reads bad (f false) F fs rest Q) : Reads bad (accept kind >>= f) F fs rest Q := by
  unfold accept
  rw [bind_assoc]
  refine reads_check_neg hkind ?_
  simpa using h

theorem reads_expect_bind {kind : TokenKind} {f : Token → Parse β} (hkind : x.1 = kind)
    (hfinish : kind ≠ .finish) (h : ∀ t, t.face = x → Reads bad (f t) F fs rest Q) :
    Reads bad (expect kind >>= f) F (x :: fs) rest Q := by
  unfold expect
  rw [bind_assoc]
  refine reads_check_pos hkind ?_
  exact reads_advance_bind (hkind ▸ hfinish) h

theorem reads_register_bind {tag : NodeTag} {pos : Position} {f : Mark → Parse β}
    (h : ∀ m, Reads bad (f m) F fs rest Q) : Reads bad (register tag pos >>= f) F fs rest Q := by
  intro s hs
  exact h _ _ hs

/-! ## Loops -/

/-- A repeated step reads some faces in front of others, if it may be repeated often enough. -/
def Loops (bad : Fault → Prop) (step : σ → Parse (Next σ β)) (a : σ) (fits : Prop)
    (fs rest : List Face) (Q : β → Prop) : Prop :=
  ∀ n s, s.faces = fs ++ rest → s.tokens.length < n →
    Ends bad fits rest Q (StateT.run (iterateWithin step n a) s)

variable {step : σ → Parse (Next σ β)} {a : σ}

theorem Loops.congr (h : Loops bad step a F fs rest Q) (hfits : F ↔ G) :
    Loops bad step a G fs rest Q := by
  rwa [propext hfits] at h

/-- The last step. -/
theorem Loops.done (h : Reads bad (step a) F fs rest fun r => ∃ b, r = .done b ∧ Q b) :
    Loops bad step a F fs rest Q := by
  intro n s hs hn
  obtain ⟨n, rfl⟩ : ∃ m, n = m + 1 := ⟨n - 1, by omega⟩
  have hlast : Reads bad (step a) F fs ([] ++ rest) fun r => ∃ b, r = .done b ∧ Q b := h
  refine (Reads.bind hlast (G := True) ?_).congr (and_iff_left trivial) s ?_
  · rintro _ ⟨b, rfl, hb⟩
    exact reads_pure hb
  · rwa [List.append_nil]

/-- A step that is followed by others. -/
theorem Loops.again {I : σ → Prop}
    (h : Reads bad (step a) F fs (gs ++ rest) fun r => ∃ a', r = .again a' ∧ I a') (hfs : fs ≠ [])
    (hnext : ∀ a', I a' → Loops bad step a' G gs rest Q) :
    Loops bad step a (F ∧ G) (fs ++ gs) rest Q := by
  intro n s hs hn
  obtain ⟨n, rfl⟩ : ∃ m, n = m + 1 := ⟨n - 1, by omega⟩
  rw [iterateWithin, StateT.run_bind]
  rw [List.append_assoc] at hs
  obtain ⟨hok, hfault⟩ := h s hs
  by_cases hF : F
  · obtain ⟨_, s', hrun, hs', a', rfl, ha'⟩ := hok hF
    -- the step has taken a token
    have hlength : s'.tokens.length < n := by
      have h₁ := congrArg List.length hs
      have h₂ := congrArg List.length hs'
      have h₃ := List.length_pos_iff.mpr hfs
      simp only [ParseState.faces, List.length_map, List.length_append] at h₁ h₂
      omega
    obtain ⟨hok', hfault'⟩ := hnext a' ha' n s' hs' hlength
    rw [hrun]
    exact ⟨fun h => hok' h.2, fun h => hfault' fun hG => h ⟨hF, hG⟩⟩
  · obtain ⟨e, hrun, he⟩ := hfault hF
    rw [hrun]
    exact ⟨fun h => absurd h.1 hF, fun _ => ⟨e, rfl, he⟩⟩

theorem reads_iterate (h : Loops bad step a F fs rest Q) :
    Reads bad (iterate step a) F fs rest Q := by
  intro s hs
  exact h _ s hs (Nat.lt_succ_self _)

end Parse

end Toolchain
