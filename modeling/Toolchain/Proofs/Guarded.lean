import Toolchain.Parser.Block
import Toolchain.Proofs.Outcome

/-!
# Going on after a fault

A fault ends the parser and the compiler. They can also be run with less: a fault is noted and
written to the log, and every rule goes on to its end. What holds the rules back then is only that
they look, here and there, whether a fault was found; and one fault is noted and written, and no
more, because every place that finds a fault looks first whether one was found before it.

So the steps that the rules are put together from leave alone what was noted and written before,
and a sequence of such steps is another one. A step follows one that ends in its fault if the two do
the same as long as there is no fault, and if the fault that ends the one is what the other notes
and writes. What it does to the state after a fault does not matter.

## Main definitions

* `Sink`: where the entries of a log go
* `Guard`, `Guarded`: a state with what was found and written, and a step that goes on after a fault
* `Guarded.fail`: notes and writes a fault, unless one was found before
* `Guarded.ifCalm`, `Guarded.ifSome`: a rule that looks whether it may go on
* `Contract`: what the steps on a kind of state keep, and what their faults tell
* `Guarded.Follows`: a step that goes on after a fault does what one does that ends in it

## Main results

* `Guarded.Follows.bind`: a sequence of steps follows the sequence of what they follow
* `Guarded.Follows.ifCalm`, `Guarded.Follows.ifSome`: a rule may stop after a fault, or go on
* `Guarded.Raises.andThen`: a rule may do anything once it has failed
-/

namespace Toolchain

/-- Where the entries of a log go. -/
structure Sink where
  /-- Whether entries are thrown away. -/
  discards : Bool := false
  /-- The entries that were written, in order. -/
  entries : List LogEntry := []

namespace Sink

/-- The sink that throws all entries away. -/
def nop : Sink := { discards := true }

/-- Writes an entry. -/
def write (s : Sink) (e : LogEntry) : Sink :=
  if s.discards then s else { s with entries := s.entries ++ [e] }

/-- Writes entries in order. -/
def writeAll (s : Sink) (es : List LogEntry) : Sink := es.foldl write s

theorem writeAll_append (s : Sink) (es es' : List LogEntry) :
    s.writeAll (es ++ es') = (s.writeAll es).writeAll es' := List.foldl_append

end Sink

/-- What is written to the log about a fault. -/
def Fault.logEntry (f : Fault) : LogEntry := ⟨.error, f.message⟩

theorem Fault.logEntry_diagnostic (f : Fault) (file : Text) :
    (f.diagnostic file).logEntry = f.logEntry := by
  unfold Fault.diagnostic Diagnostic.withSpan
  split
  · rfl
  · rfl

/-- The state of a parser or a compiler that goes on after a fault. The flag is set together with
the fault. -/
structure Guard (σ : Type) where
  state : σ
  /-- Whether a fault was found. -/
  panicking : Bool := false
  /-- The fault that was found first. -/
  err : Option Fault := none
  log : Sink := {}
  agrees : panicking = err.isSome := by rfl

namespace Guard

variable {σ : Type} {s s' : Guard σ} {f : Fault} {log : Sink}

/-- What was noted and what was written. -/
def verdict (s : Guard σ) : Option Fault × Sink := (s.err, s.log)

theorem panicking_of_verdict (h : s.verdict = (some f, log)) : s.panicking = true := by
  rw [s.agrees, (Prod.mk.inj h).1]
  rfl

theorem panicking_eq_of_verdict_eq (h : s'.verdict = s.verdict) : s'.panicking = s.panicking := by
  rw [s'.agrees, s.agrees, (Prod.mk.inj h).1]

/-- Notes and writes a fault. -/
def note (f : Fault) (s : Guard σ) : Guard σ :=
  { s with panicking := true, err := some f, log := s.log.write f.logEntry, agrees := rfl }

end Guard

/-- A step that goes on after a fault. It may do anything to the state then, but what was noted and
written stays as it was. -/
@[ext] structure Guarded (σ α : Type) where
  /-- What the step gives at a state, and the state after it. -/
  exec : Guard σ → α × Guard σ
  mute : ∀ s, s.panicking = true → (exec s).2.verdict = s.verdict

namespace Guarded

variable {σ α β γ δ : Type}

instance : Monad (Guarded σ) where
  pure a := ⟨fun s => (a, s), fun _ _ => rfl⟩
  bind g k := ⟨fun s => (k (g.exec s).1).exec (g.exec s).2, fun s hs => by
    have hfirst := g.mute s hs
    have hpanicking := (Guard.panicking_eq_of_verdict_eq hfirst).trans hs
    exact ((k _).mute _ hpanicking).trans hfirst⟩

instance : LawfulMonad (Guarded σ) :=
  .mk' _ (fun _ => rfl) (fun _ _ => rfl) fun _ _ _ => rfl

/-- Whether a fault was found. -/
def panicking : Guarded σ Bool := ⟨fun s => (s.panicking, s), fun _ _ => rfl⟩

/-- The state without what was noted and written. -/
def state : Guarded σ σ := ⟨fun s => (s.state, s), fun _ _ => rfl⟩

/-- A step that finds no fault. -/
def alter (f : σ → α × σ) : Guarded σ α :=
  ⟨fun s => ((f s.state).1, { s with state := (f s.state).2 }), fun _ _ => rfl⟩

/-- Changes the state. -/
def put (t : σ) : Guarded σ PUnit := alter fun _ => (⟨⟩, t)

/-- Does something that may note and write, unless a fault was found before. -/
def unlessPanicking (b : β) (act : Guard σ → β × Guard σ) : Guarded σ β :=
  ⟨fun s => if s.panicking then (b, s) else act s, fun s hs => by rw [if_pos hs]⟩

/-- Notes and writes a fault, unless one was found before. -/
def fail (f : Fault) : Guarded σ Unit := unlessPanicking () fun s => ((), s.note f)

/-- Goes on if no fault was found, and stops otherwise. -/
def ifCalm (b : β) (g : Guarded σ β) : Guarded σ β := do
  if ← panicking then return b else g

/-- Goes on with what a step has made, if it has made anything, and does something else
otherwise. -/
def ifSome (g : Guarded σ (Option α)) (otherwise : Guarded σ β) (k : α → Guarded σ β) :
    Guarded σ β := do
  match ← g with
  | none => otherwise
  | some a => k a

/-- What is done if no fault was found before. -/
theorem exec_unlessPanicking {b : β} {act : Guard σ → β × Guard σ} {s : Guard σ}
    (hs : s.panicking = false) : (unlessPanicking b act).exec s = act s :=
  if_neg (Bool.eq_false_iff.mp hs)

theorem exec_fail (f : Fault) {s : Guard σ} (hs : s.panicking = false) :
    (fail f).exec s = ((), s.note f) := exec_unlessPanicking hs

/-- What is noted and written does not depend on the state that a fault is found in. -/
theorem verdict_fail (f : Fault) (s : Guard σ) :
    ((fail f).exec s).2.verdict =
      if s.panicking then s.verdict else (some f, s.log.write f.logEntry) := by
  change (if s.panicking then ((), s) else ((), s.note f)).2.verdict = _
  split
  · rfl
  · rfl

end Guarded

/-- What the steps on a kind of state keep as long as there is no fault, and what their faults
tell. -/
class Contract (σ : Type) where
  Keeps : σ → Prop
  Tells : Fault → Prop

namespace Guarded

open Contract

variable {σ α β γ δ : Type} [Contract σ]

/-! ## Steps that follow one that ends in a fault -/

/-- From a state a step does what another one does that ends in a fault, up to how the value is
seen: it gives the same value, which has a property, and leaves the same state, or it notes and
writes the same fault. -/
def Repeats (v : α → β) (Q : α → Prop) (g : Guarded σ β) (s : Guard σ) :
    Except Fault (α × σ) → Prop
  | .ok (a, t) => Keeps t ∧ Q a ∧ g.exec s = (v a, { s with state := t })
  | .error f => Tells σ f ∧ (g.exec s).2.verdict = (some f, s.log.write f.logEntry)

/-- A step does what another one does that ends in a fault, from every state without a fault. -/
def Follows (v : α → β) (Q : α → Prop) (g : Guarded σ β) (p : StateT σ (Except Fault) α) : Prop :=
  ∀ s, Keeps s.state → s.panicking = false → Repeats v Q g s (StateT.run p s.state)

/-- A step does what another one does that ends in a fault, and nothing is asked of the values. -/
abbrev Matches (v : α → β) (g : Guarded σ β) (p : StateT σ (Except Fault) α) : Prop :=
  Follows v (fun _ => True) g p

/-- A step finds a fault where another one ends in it. -/
def Raises (g : Guarded σ Unit) (p : StateT σ (Except Fault) α) : Prop :=
  ∀ s, Keeps s.state → s.panicking = false → ∃ f, StateT.run p s.state = .error f ∧ Tells σ f ∧
    (g.exec s).2.verdict = (some f, s.log.write f.logEntry)

variable {g : Guarded σ β} {p : StateT σ (Except Fault) α} {v : α → β} {Q R : α → Prop}
  {r : Guarded σ Unit} {f : Fault}

theorem raises_fail (hf : Tells σ f) : Raises (fail f : Guarded σ Unit) (throw f : StateT σ _ α) :=
  fun s _ hs => ⟨f, rfl, hf, by rw [exec_fail f hs]; rfl⟩

/-- What would come after a fault is never reached. -/
theorem Raises.bind (h : Raises r p) (q : α → StateT σ (Except Fault) γ) :
    Raises r (p >>= q) := by
  intro s ht hs
  obtain ⟨f, hrun, hf⟩ := h s ht hs
  refine ⟨f, ?_, hf⟩
  rw [StateT.run_bind, hrun]
  rfl

/-- A fault does not depend on the state that it is found in. -/
theorem Raises.after_put (h : Raises r (throw f : StateT σ (Except Fault) α)) {t : σ}
    (ht : Keeps t) : Raises (put t >>= fun _ => r) (throw f : StateT σ (Except Fault) α) :=
  fun s _ hs => h { s with state := t } ht hs

/-- The fault may depend on the state. -/
theorem Raises.look {k : σ → Guarded σ Unit} {q : σ → StateT σ (Except Fault) α}
    (hk : ∀ t, Raises (k t) (q t)) : Raises (state >>= k) (get >>= q) :=
  fun s ht hs => hk s.state s ht hs

/-- A rule may do anything once it has failed. -/
theorem Raises.andThen (h : Raises r p) (g : Guarded σ β) :
    Follows v Q (r >>= fun _ => g) p := by
  intro s ht hs
  obtain ⟨f, hrun, htells, hverdict⟩ := h s ht hs
  rw [hrun]
  -- what comes after the fault may change the state, but not the verdict
  exact ⟨htells, (g.mute _ (Guard.panicking_of_verdict hverdict)).trans hverdict⟩

/-- A rule that has failed may stop right there. -/
theorem Raises.follows {v : α → Unit} (h : Raises r p) : Follows v Q r p := by
  have hfollows : Follows v Q (r >>= fun _ => pure ()) p := h.andThen _
  rwa [bind_pure_unit] at hfollows

theorem follows_fail (hf : Tells σ f) (b : β) :
    Follows v Q (fail f >>= fun _ => pure b : Guarded σ β) (throw f) :=
  (raises_fail hf).andThen _

/-- A step that finds no fault follows one that does not end in one. -/
theorem follows_of_run (f : σ → α × σ) (hrun : ∀ t, StateT.run p t = .ok (f t))
    (hexec : ∀ s, s.panicking = false →
      g.exec s = (v (f s.state).1, { s with state := (f s.state).2 }))
    (hkeeps : ∀ t, Keeps t → Keeps (f t).2 ∧ Q (f t).1) : Follows v Q g p := by
  intro s ht hs
  rw [hrun]
  exact ⟨(hkeeps _ ht).1, (hkeeps _ ht).2, hexec s hs⟩

theorem follows_pure {a : α} (h : Q a) : Follows v Q (pure (v a) : Guarded σ β) (pure a) :=
  follows_of_run (fun t => (a, t)) (fun _ => rfl) (fun _ _ => rfl) fun _ ht => ⟨ht, h⟩

theorem Follows.imp (h : Follows v Q g p) (hQR : ∀ a, Q a → R a) : Follows v R g p := by
  intro s ht hs
  have hrepeats := h s ht hs
  cases hrun : StateT.run p s.state with
  | error f =>
    rw [hrun] at hrepeats
    exact hrepeats
  | ok r =>
    rw [hrun] at hrepeats
    exact ⟨hrepeats.1, hQR _ hrepeats.2.1, hrepeats.2.2⟩

/-- A sequence of steps follows the sequence of what they follow, however the first value is
seen. -/
theorem Follows.bind_view {k : β → Guarded σ δ} {q : α → StateT σ (Except Fault) γ} {w : γ → δ}
    {P : γ → Prop} (h : Follows v Q g p) (hk : ∀ a, Q a → Follows w P (k (v a)) (q a)) :
    Follows w P (g >>= k) (p >>= q) := by
  intro s ht hs
  have hfirst := h s ht hs
  have hexec : (g >>= k).exec s = (k (g.exec s).1).exec (g.exec s).2 := rfl
  rw [StateT.run_bind]
  cases hrun : StateT.run p s.state with
  | error f =>
    rw [hrun] at hfirst
    obtain ⟨htells, hverdict⟩ := hfirst
    refine ⟨htells, ?_⟩
    rw [hexec]
    -- the rest is run all the same, on whatever value the first step gave
    exact ((k _).mute _ (Guard.panicking_of_verdict hverdict)).trans hverdict
  | ok r =>
    obtain ⟨a, t⟩ := r
    rw [hrun] at hfirst
    obtain ⟨hkeeps, ha, hgiven⟩ := hfirst
    -- the log is still that of the start, so that the rest writes where this one would
    have hnext := hk a ha { s with state := t } hkeeps hs
    rw [hgiven] at hexec
    show Repeats w P (g >>= k) s (StateT.run (q a) t)
    revert hnext
    cases StateT.run (q a) t with
    | error f =>
      rintro ⟨htells, hverdict⟩
      refine ⟨htells, ?_⟩
      rw [hexec]
      exact hverdict
    | ok r =>
      rintro ⟨hkeeps', hc, hgiven'⟩
      exact ⟨hkeeps', hc, hexec.trans hgiven'⟩

/-- **A sequence of steps follows the sequence of what they follow.** -/
theorem Follows.bind {g : Guarded σ α} {k : α → Guarded σ δ} {q : α → StateT σ (Except Fault) γ}
    {w : γ → δ} {P : γ → Prop} (h : Follows id Q g p) (hk : ∀ a, Q a → Follows w P (k a) (q a)) :
    Follows w P (g >>= k) (p >>= q) :=
  h.bind_view hk

theorem Follows.map (h : Follows v Q g p) (w : β → γ) : Follows (w ∘ v) Q (w <$> g) p := by
  rw [← bind_pure_comp, ← bind_pure p]
  exact h.bind_view fun a ha => follows_pure ha

theorem Follows.ite {c : Prop} [Decidable c] {g' : Guarded σ β} {p' : StateT σ (Except Fault) α}
    (h : Follows v Q g p) (h' : Follows v Q g' p') :
    Follows v Q (if c then g else g') (if c then p else p') := by
  split
  · exact h
  · exact h'

/-- A rule may do something else after a fault. -/
theorem Follows.unlessPanicking (g' : Guarded σ β) (h : Follows v Q g p) :
    Follows v Q (do if ← panicking then g' else g) p := by
  intro s ht hs
  have hexec : (do if ← panicking then g' else g : Guarded σ β).exec s = g.exec s := by
    change (if s.panicking = true then g' else g).exec s = _
    rw [if_neg (Bool.eq_false_iff.mp hs)]
  have hrepeats := h s ht hs
  unfold Repeats at hrepeats ⊢
  rwa [hexec]

/-- A rule may stop after a fault. -/
theorem Follows.ifCalm (h : Follows v Q g p) (b : β) : Follows v Q (ifCalm b g) p :=
  h.unlessPanicking (pure b)

/-- A rule that has found no fault may look once more whether it has. -/
theorem Follows.thenIfCalm (h : Follows v Q g p) (b : β) :
    Follows v Q (g >>= fun a => Guarded.ifCalm b (pure a)) p := by
  rw [← bind_pure p]
  exact h.bind_view fun a ha => (follows_pure ha).ifCalm b

/-- A rule may do something else if a part of it was not made, which is so only after a fault. -/
theorem Follows.ifSome {g : Guarded σ (Option α)} {otherwise : Guarded σ δ}
    {k : α → Guarded σ δ} {q : α → StateT σ (Except Fault) γ} {w : γ → δ} {P : γ → Prop}
    (h : Follows some Q g p) (hk : ∀ a, Q a → Follows w P (k a) (q a)) :
    Follows w P (Guarded.ifSome g otherwise k) (p >>= q) :=
  h.bind_view hk

/-! ## Steps that find no fault -/

theorem follows_state : Follows id Keeps (state : Guarded σ σ) get :=
  follows_of_run (fun t => (t, t)) (fun _ => rfl) (fun _ _ => rfl) fun _ ht => ⟨ht, ht⟩

theorem follows_alter (f : σ → α × σ) (hf : ∀ t, Keeps t → Keeps (f t).2 ∧ Q (f t).1) :
    Follows id Q (alter f) (modifyGet f) :=
  follows_of_run f (fun _ => rfl) (fun _ _ => rfl) hf

theorem follows_put {t : σ} (ht : Keeps t) : Matches id (put t) (set t) :=
  follows_alter _ fun _ _ => ⟨ht, trivial⟩

end Guarded

end Toolchain
