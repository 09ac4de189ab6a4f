import Toolchain.Proofs.Parser.Ahead
import Toolchain.Proofs.Parser.Reading

/-!
# Rules in front of different texts

A rule of the grammar sees the tokens one after the other. Two states with the same tokens ahead, at
other positions and with other nodes, are told apart only where the input ends in one of them and
goes on in the other. A rule that stops before, or in front of something that it would not take,
does the same in both, up to annotations.

## Main definitions

* `ParseState.Beside`: states with the same faces ahead, where the input ends in the first
* `Parse.AlongsideOn`: two rules have results that look the same, in front of a face
* `Parse.Settled`: what is next is the same in both states

## Main results

* `Parse.AlongsideOn.bind`: rules after rules
* `Parse.AlongsideOn.bind_inner`: a rule after one that stops in front of a token
* `Parse.alongside_iterate`: a rule that repeats a step
-/

namespace Toolchain

/-- What the grammar sees of the end of the input. -/
abbrev endFace : Face := (.finish, "")

/-- Faces behind which the input ends. -/
def EndsInput (fs : List Face) : Prop :=
  ∃ ahead, fs = ahead ++ [endFace] ∧ ∀ x ∈ ahead, x.1 ≠ .finish

theorem EndsInput.eq_of_finish {fs : List Face} (h : EndsInput fs) {x : Face} (hx : x.1 = .finish)
    {before after : List Face} (hfs : fs = before ++ x :: after) : x = endFace ∧ after = [] := by
  obtain ⟨ahead, heq, hahead⟩ := h
  rw [hfs] at heq
  cases List.eq_nil_or_concat after with
  | inl hafter =>
    subst hafter
    exact ⟨(List.cons.inj (List.append_inj' heq rfl).2).1, rfl⟩
  | inr hafter =>
    obtain ⟨init, last, rfl⟩ := hafter
    have hends : (before ++ x :: init) ++ [last] = ahead ++ [endFace] := by simpa using heq
    have hsplit : before ++ x :: init = ahead := (List.append_inj' hends rfl).1
    exact absurd hx (hahead x (hsplit ▸ by simp))

namespace ParseState

/-- A token that is next and not the end is there. -/
theorem exists_faces_cons {s : ParseState} (hs : s.next.kind ≠ .finish) :
    ∃ fs, s.faces = s.next.face :: fs := by
  have hface := Parse.face_next s
  cases hfaces : s.faces with
  | nil =>
    rw [hfaces] at hface
    exact absurd (congrArg Prod.fst hface) hs
  | cons x fs =>
    rw [hfaces] at hface
    exact ⟨fs, by rw [hface]; rfl⟩

/-- Two states with the same faces ahead, behind which the input ends in the first one, and
something follows in the second one. -/
structure Beside (rest : List Face) (s t : ParseState) : Prop where
  faces : ∃ ahead, s.faces = ahead ++ [endFace] ∧ t.faces = ahead ++ rest ∧
    ∀ x ∈ ahead, x.1 ≠ .finish
  some : rest ≠ []

variable {rest : List Face} {s s₁ s' t : ParseState}

theorem Beside.endsInput (h : s.Beside rest t) : EndsInput s.faces := by
  obtain ⟨ahead, hs, -, hahead⟩ := h.faces
  exact ⟨ahead, hs, hahead⟩

/-- Before the end the same token is next. -/
theorem Beside.next_face (h : s.Beside rest t) (hs : s.next.kind ≠ .finish) :
    t.next.face = s.next.face := by
  obtain ⟨ahead, hsfaces, htfaces, -⟩ := h.faces
  have hkind : (Parse.front s.faces).1 ≠ .finish := by
    rw [← Parse.face_next]
    exact hs
  rw [Parse.face_next, Parse.face_next, htfaces, hsfaces]
  cases ahead with
  | nil =>
    rw [hsfaces] at hkind
    exact absurd rfl hkind
  | cons x ahead => rfl

theorem Beside.of_finish (h : s.Beside rest t) (hs : s.next.kind = .finish) :
    s.next.face = endFace ∧ s.faces = [endFace] ∧ t.faces = rest := by
  obtain ⟨ahead, hsfaces, htfaces, hahead⟩ := h.faces
  cases ahead with
  | nil =>
    refine ⟨?_, hsfaces, htfaces⟩
    rw [Parse.face_next, hsfaces]
    rfl
  | cons x ahead =>
    have hface : s.next.face = x := by
      rw [Parse.face_next, hsfaces]
      rfl
    have hkind : x.1 = .finish := by
      rw [← hface]
      exact hs
    exact absurd hkind (hahead x List.mem_cons_self)

theorem Beside.length_le (h : s.Beside rest t) : s.tokens.length ≤ t.tokens.length := by
  obtain ⟨ahead, hs, ht, -⟩ := h.faces
  have hs := congrArg List.length hs
  have ht := congrArg List.length ht
  have hrest := List.length_pos_iff.mpr h.some
  simp only [ParseState.faces, List.length_map, List.length_append, List.length_singleton] at hs ht
  omega

/-- The end of the input is not passed. -/
theorem kind_of_suffix (h : EndsInput s.faces) (h₁ : s₁.faces <:+ s.faces)
    (h' : s'.faces <:+ s₁.faces) (hfinish : s₁.next.kind = .finish) : s'.next.kind = .finish := by
  have hkind {u : ParseState} {x : Face} {fs : List Face} (hu : u.faces = x :: fs) :
      u.next.kind = x.1 := by
    have hface : u.next.face = x := by
      rw [Parse.face_next, hu]
      rfl
    exact congrArg Prod.fst hface
  have hend {u : ParseState} (hu : u.faces = []) : u.next.kind = .finish := by
    have hface := Parse.face_next u
    rw [hu] at hface
    exact congrArg Prod.fst hface
  cases hfaces : s₁.faces with
  | nil =>
    rw [hfaces] at h'
    exact hend (List.suffix_nil.mp h')
  | cons x fs =>
    rw [hkind hfaces] at hfinish
    obtain ⟨before, hbefore⟩ := h₁
    rw [hfaces] at hbefore
    obtain ⟨rfl, rfl⟩ := h.eq_of_finish hfinish hbefore.symm
    rw [hfaces] at h'
    -- at most the end itself is left
    rcases List.suffix_cons_iff.mp h' with h' | h'
    · exact hkind h'
    · exact hend (List.suffix_nil.mp h')

end ParseState

namespace Parse

open ParseState

variable {α β γ δ σ τ : Type} {x : Face} {stop : Face → Prop} {p p' : Parse α} {f f' : α → Parse β}
  {v : α → γ} {w : β → δ}

/-- In front of a face, a rule that has a result where the input ends has one that looks the same
where it goes on, if what follows is something that the rule stops in front of, or if the rule does
not read up to the end. -/
structure AlongsideOn (x : Face) (stop : Face → Prop) (v : α → γ) (p p' : Parse α) : Prop where
  suffix : ∀ ⦃s r s'⦄, s.next.face = x → StateT.run p s = .ok (r, s') → s'.faces <:+ s.faces
  agrees : ∀ ⦃rest s t⦄, s.Beside rest t → s.next.face = x →
    ∀ ⦃r s'⦄, StateT.run p s = .ok (r, s') →
    (s'.next.kind = .finish → stop (front rest)) →
      ∃ r' t', StateT.run p' t = .ok (r', t') ∧ s'.Beside rest t' ∧ v r = v r'

/-- In front of any face. -/
def Alongside (stop : Face → Prop) (v : α → γ) (p p' : Parse α) : Prop :=
  ∀ x, AlongsideOn x stop v p p'

/-- Nothing but the end of the input. -/
def IsEnd (x : Face) : Prop := x = endFace

/-- At the end of the input, nothing else may follow in the other state. -/
def Settled (x : Face) (stop : Face → Prop) : Prop := x = endFace → ∀ y, stop y → y = endFace

theorem settled_isEnd (x : Face) : Settled x IsEnd := fun _ _ h => h

theorem settled_of_ne (hx : x.1 ≠ .finish) (stop : Face → Prop) : Settled x stop := by
  rintro rfl
  exact absurd rfl hx

/-! ## Rules after rules -/

theorem alongsideOn_pure {a a' : α} (h : v a = v a') :
    AlongsideOn x stop v (pure a : Parse α) (pure a') where
  suffix := by
    rintro s _ _ - ⟨⟩
    exact List.suffix_rfl
  agrees := by
    rintro rest s t hst - _ _ ⟨⟩ -
    exact ⟨a', t, rfl, hst, h⟩

/-- A rule that has no result. -/
theorem alongsideOn_of_stuck (h : ∀ b : Token, b.face = x → Stuck b p) :
    AlongsideOn x stop v p p' where
  suffix s _ _ hx hrun := absurd hrun (h _ hx s rfl _)
  agrees _ s _ _ hx _ _ hrun := absurd hrun (h _ hx s rfl _)

/-- A rule has a result in front of a token only if it does not get stuck there. -/
theorem alongside_of_stuck (hstuck : ∀ b : Token, b.kind = .finish → Stuck b p)
    (h : ∀ x : Face, x.1 ≠ .finish → AlongsideOn x stop v p p') : Alongside stop v p p' := by
  intro x
  by_cases hx : x.1 = .finish
  · exact alongsideOn_of_stuck fun b hb => hstuck b ((congrArg Prod.fst hb).trans hx)
  · exact h x hx

theorem suffix_bind (hp : AlongsideOn x stop v p p')
    (hf : ∀ a, ∀ ⦃s r s'⦄, StateT.run (f a) s = .ok (r, s') → s'.faces <:+ s.faces)
    ⦃s : ParseState⦄ ⦃r : β⦄ ⦃s' : ParseState⦄ (hx : s.next.face = x)
    (hrun : StateT.run (p >>= f) s = .ok (r, s')) : s'.faces <:+ s.faces := by
  rw [StateT.run_bind, Outcome.bind_eq_ok_iff] at hrun
  obtain ⟨⟨a, s₁⟩, hrun₁, hrun₂⟩ := hrun
  exact (hf a hrun₂).trans (hp.suffix hx hrun₁)

/-- A rule after another one. -/
theorem AlongsideOn.bind (hp : AlongsideOn x stop v p p')
    (hf : ∀ a a', v a = v a' → Alongside stop w (f a) (f' a')) :
    AlongsideOn x stop w (p >>= f) (p' >>= f') where
  suffix := suffix_bind hp fun a s _ _ hrun => (hf a a rfl s.next.face).suffix rfl hrun
  agrees := by
    intro rest s t hst hx r s' hrun hend
    rw [StateT.run_bind, Outcome.bind_eq_ok_iff] at hrun
    obtain ⟨⟨a, s₁⟩, hrun₁, hrun₂⟩ := hrun
    have hsuffix := (hf a a rfl s₁.next.face).suffix rfl hrun₂
    -- if the first rule reads up to the end, so does the second
    have hend₁ (hfinish : s₁.next.kind = .finish) : stop (front rest) :=
      hend (kind_of_suffix hst.endsInput (hp.suffix hx hrun₁) hsuffix hfinish)
    obtain ⟨a', t₁, hrun₁', hst₁, ha⟩ := hp.agrees hst hx hrun₁ hend₁
    obtain ⟨r', t', hrun₂', hst', hr⟩ := (hf a a' ha s₁.next.face).agrees hst₁ rfl hrun₂ hend
    refine ⟨r', t', ?_, hst', hr⟩
    rw [StateT.run_bind, hrun₁']
    exact hrun₂'

/-- A rule that gets stuck at the end of the input, after one that stops in front of a token. -/
theorem AlongsideOn.bind_inner (hp : AlongsideOn x IsEnd v p p')
    (hf : ∀ a a', v a = v a' → ∀ y : Face, y.1 ≠ .finish → AlongsideOn y stop w (f a) (f' a'))
    (hstuck : ∀ a, ∀ b : Token, b.kind = .finish → Stuck b (f a)) :
    AlongsideOn x stop w (p >>= f) (p' >>= f') where
  suffix := suffix_bind hp fun a s _ _ hrun =>
    (alongside_of_stuck (hstuck a) (hf a a rfl) s.next.face).suffix rfl hrun
  agrees := by
    intro rest s t hst hx r s' hrun hend
    rw [StateT.run_bind, Outcome.bind_eq_ok_iff] at hrun
    obtain ⟨⟨a, s₁⟩, hrun₁, hrun₂⟩ := hrun
    have hinner : s₁.next.kind ≠ .finish := fun hfinish => hstuck a _ hfinish s₁ rfl _ hrun₂
    obtain ⟨a', t₁, hrun₁', hst₁, ha⟩ := hp.agrees hst hx hrun₁ fun h => absurd h hinner
    obtain ⟨r', t', hrun₂', hst', hr⟩ := (hf a a' ha s₁.next.face hinner).agrees hst₁ rfl hrun₂ hend
    refine ⟨r', t', ?_, hst', hr⟩
    rw [StateT.run_bind, hrun₁']
    exact hrun₂'

theorem AlongsideOn.map {g g' : α → β} (hp : AlongsideOn x stop v p p')
    (h : ∀ a a', v a = v a' → w (g a) = w (g' a')) :
      AlongsideOn x stop w (g <$> p) (g' <$> p') := by
  rw [← bind_pure_comp, ← bind_pure_comp]
  apply hp.bind
  intro a a' ha y
  exact alongsideOn_pure (h a a' ha)

theorem alongsideOn_pure_bind {a a' : α} (h : AlongsideOn x stop w (f a) (f' a')) :
    AlongsideOn x stop w (pure a >>= f) (pure a' >>= f') := by
  rwa [pure_bind, pure_bind]

/-- Rules that take no token and have results that look the same. -/
theorem alongside_of_idle {c : γ}
    (h : ∀ s, ∃ r s', StateT.run p s = .ok (r, s') ∧ s'.tokens = s.tokens ∧ v r = c)
    (h' : ∀ s, ∃ r s', StateT.run p' s = .ok (r, s') ∧ s'.tokens = s.tokens ∧ v r = c) :
    Alongside stop v p p' := by
  intro x
  constructor
  · intro s r s' _ hrun
    obtain ⟨_, _, hrun', htokens, -⟩ := h s
    obtain ⟨rfl, rfl⟩ := Prod.mk.inj (Except.ok.inj (hrun.symm.trans hrun'))
    have hfaces : s'.faces = s.faces := by rw [faces, faces, htokens]
    exact hfaces ▸ List.suffix_rfl
  · intro rest s t hst _ r s' hrun _
    obtain ⟨_, _, hrun', htokens, hr⟩ := h s
    obtain ⟨rfl, rfl⟩ := Prod.mk.inj (Except.ok.inj (hrun.symm.trans hrun'))
    obtain ⟨r', t', hrun'', htokens', hr'⟩ := h' t
    refine ⟨r', t', hrun'', ⟨?_, hst.some⟩, hr.trans hr'.symm⟩
    rw [faces, faces, htokens, htokens']
    exact hst.faces

/-! ## Single steps -/

section Steps

variable {k : TokenKind}

/-- A rule that looks at the kind of the next token. Where the input ends in one state it does what
it would do in front of anything that may follow in the other. -/
theorem alongsideOn_peekKind_bind_of {f f' : TokenKind → Parse β}
    (hends : x = endFace → ∀ y, stop y → f' y.1 = f' .finish)
    (h : AlongsideOn x stop w (f x.1) (f' x.1)) :
    AlongsideOn x stop w (peekKind >>= f) (peekKind >>= f') := by
  have hpeek (g : TokenKind → Parse β) (u : ParseState) :
      StateT.run (peekKind >>= g) u = StateT.run (g u.next.kind) u := rfl
  constructor
  · intro s r s' hx hrun
    rw [hpeek, ← show s.next.face.1 = s.next.kind from rfl, hx] at hrun
    exact h.suffix hx hrun
  · intro rest s t hst hx r s' hrun hend
    have hkind : s.next.kind = x.1 := congrArg Prod.fst hx
    rw [hpeek, hkind] at hrun
    have hsame : f' t.next.kind = f' x.1 := by
      by_cases hfinish : s.next.kind = .finish
      · obtain ⟨hface, -, htfaces⟩ := hst.of_finish hfinish
        have hend' := hend (kind_of_suffix hst.endsInput List.suffix_rfl (h.suffix hx hrun) hfinish)
        have hfront : t.next.kind = (front rest).1 := by
          rw [← htfaces, ← face_next]
          rfl
        have hxend : x = endFace := hx.symm.trans hface
        rw [hfront, hends hxend _ hend', hxend]
      · have hface := hst.next_face hfinish
        rw [show t.next.kind = s.next.kind from congrArg Prod.fst hface, hkind]
    rw [hpeek, hsame]
    exact h.agrees hst hx hrun hend

theorem alongsideOn_peekKind_bind (hends : Settled x stop) {f f' : TokenKind → Parse β}
    (h : AlongsideOn x stop w (f x.1) (f' x.1)) :
    AlongsideOn x stop w (peekKind >>= f) (peekKind >>= f') :=
  alongsideOn_peekKind_bind_of (fun hx y hy => by rw [hends hx y hy]) h

/-- A rule that looks at the next token. -/
theorem alongsideOn_peek_bind (hends : Settled x stop) {f f' : Token → Parse β}
    (h : ∀ a a' : Token, a.face = x → a'.face = x → AlongsideOn x stop w (f a) (f' a')) :
    AlongsideOn x stop w (peek >>= f) (peek >>= f') := by
  constructor
  · intro s r s' hx hrun
    exact (h s.next s.next hx hx).suffix hx hrun
  · intro rest s t hst hx r s' hrun hend
    have hsuffix : s'.faces <:+ s.faces := (h s.next s.next hx hx).suffix hx hrun
    have hface : t.next.face = x := by
      by_cases hfinish : s.next.kind = .finish
      · obtain ⟨hface, -, htfaces⟩ := hst.of_finish hfinish
        have hend' := hend (kind_of_suffix hst.endsInput List.suffix_rfl hsuffix hfinish)
        have hxend : x = endFace := hx.symm.trans hface
        rw [face_next, htfaces, hends hxend _ hend', hxend]
      · rw [hst.next_face hfinish, hx]
    exact (h s.next t.next hx hface).agrees hst hx hrun hend

/-- A rule that looks whether the next token is of a kind. -/
theorem alongsideOn_check_bind_of {f f' : Bool → Parse β}
    (hends : x = endFace → ∀ y, stop y → (y.1 = k ↔ .finish = k))
    (h : AlongsideOn x stop w (f (decide (x.1 = k))) (f' (decide (x.1 = k)))) :
    AlongsideOn x stop w (check k >>= f) (check k >>= f') := by
  have hcheck (g : Bool → Parse β) :
      (check k >>= g) = peekKind >>= fun kind => g (decide (kind = k)) := by
    rw [peekKind, check]
    simp only [bind_assoc, pure_bind]
  rw [hcheck, hcheck]
  refine alongsideOn_peekKind_bind_of (fun hx y hy => ?_) h
  rw [decide_eq_decide.mpr (hends hx y hy)]

theorem alongsideOn_check_ite_of (hends : x = endFace → ∀ y, stop y → (y.1 = k ↔ .finish = k))
    {q q' r r' : Parse β} (hq : x.1 = k → AlongsideOn x stop w q q')
    (hr : x.1 ≠ k → AlongsideOn x stop w r r') :
    AlongsideOn x stop w (check k >>= fun b => if b = true then q else r)
      (check k >>= fun b => if b = true then q' else r') := by
  apply alongsideOn_check_bind_of hends
  by_cases hk : x.1 = k
  · simpa only [decide_eq_true hk, if_true] using hq hk
  · simpa only [decide_eq_false hk, Bool.false_eq_true, if_false] using hr hk

theorem alongsideOn_check_ite (hends : Settled x stop) {q q' r r' : Parse β}
    (hq : x.1 = k → AlongsideOn x stop w q q') (hr : x.1 ≠ k → AlongsideOn x stop w r r') :
    AlongsideOn x stop w (check k >>= fun b => if b = true then q else r)
      (check k >>= fun b => if b = true then q' else r') :=
  alongsideOn_check_ite_of (fun hx y hy => by rw [hends hx y hy]) hq hr

/-- A token that is not the end of the input is taken. -/
theorem alongsideOn_advance_bind (hx : x.1 ≠ .finish) {f f' : Token → Parse β}
    (h : ∀ a a' : Token, a.face = x → a'.face = x → Alongside stop w (f a) (f' a')) :
    AlongsideOn x stop w (advance >>= f) (advance >>= f') := by
  have htake {u : ParseState} {fs : List Face} (hu : u.faces = x :: fs) (g : Token → Parse β) :
      ∃ u', u'.faces = fs ∧ u.next.face = x ∧
        StateT.run (advance >>= g) u = StateT.run (g u.next) u' := by
    obtain ⟨u', hrun, hu'⟩ := run_advance hu hx
    exact ⟨u', hu', by rw [face_next, hu]; rfl, Outcome.run_bind_ok hrun⟩
  constructor
  · intro s r s' hs hrun
    obtain ⟨fs, hfaces⟩ :=
      exists_faces_cons fun hkind => hx ((congrArg Prod.fst hs).symm.trans hkind)
    rw [hs] at hfaces
    obtain ⟨s₁, hs₁, hface, hrun₁⟩ := htake hfaces f
    rw [hrun₁] at hrun
    have hsuffix := (h _ _ hface hface s₁.next.face).suffix rfl hrun
    rw [hfaces, ← hs₁]
    exact hsuffix.trans (List.suffix_cons x s₁.faces)
  · intro rest s t hst hs r s' hrun hend
    obtain ⟨ahead, hsfaces, htfaces, hahead⟩ := hst.faces
    cases ahead with
    | nil =>
      rw [face_next, hsfaces] at hs
      exact absurd (congrArg Prod.fst hs.symm) hx
    | cons y ahead =>
      obtain rfl : y = x := by
        rw [face_next, hsfaces] at hs
        exact hs
      obtain ⟨s₁, hs₁, hface, hrun₁⟩ := htake hsfaces f
      obtain ⟨t₁, ht₁, hface', hrun₁'⟩ := htake htfaces f'
      rw [hrun₁] at hrun
      rw [hrun₁']
      have hst₁ : s₁.Beside rest t₁ :=
        ⟨⟨ahead, hs₁, ht₁, fun z hz => hahead z (List.mem_cons_of_mem _ hz)⟩, hst.some⟩
      exact (h _ _ hface hface' s₁.next.face).agrees hst₁ rfl hrun hend

theorem alongsideOn_accept_ite (hk : k ≠ .finish) (hends : Settled x stop) {q q' r r' : Parse β}
    (hq : x.1 = k → Alongside stop w q q') (hr : x.1 ≠ k → AlongsideOn x stop w r r') :
    AlongsideOn x stop w (accept k >>= fun b => if b = true then q else r)
      (accept k >>= fun b => if b = true then q' else r') := by
  have haccept (q r : Parse β) : (accept k >>= fun b => if b = true then q else r) =
      check k >>= fun b => if b = true then (advance >>= fun _ => q) else r := by
    unfold accept
    rw [bind_assoc]
    refine bind_congr fun b => ?_
    cases b <;> simp
  rw [haccept, haccept]
  refine alongsideOn_check_ite hends (fun hkind => ?_) hr
  exact alongsideOn_advance_bind (hkind ▸ hk) fun _ _ _ _ => hq hkind

theorem alongsideOn_accept (hk : k ≠ .finish) (hends : Settled x stop) :
    AlongsideOn x stop id (accept k) (accept k) := by
  have haccept : accept k = accept k >>= fun b => if b = true then pure true else pure false := by
    conv_lhs => rw [← bind_pure (accept k)]
    refine bind_congr fun b => ?_
    cases b <;> rfl
  rw [haccept]
  exact alongsideOn_accept_ite hk hends (fun _ _ => alongsideOn_pure rfl) fun _ =>
    alongsideOn_pure rfl

/-- A token that has to be there cannot be the end of the input. -/
theorem alongsideOn_expect_bind (hk : k ≠ .finish) {f f' : Token → Parse β}
    (h : ∀ a a' : Token, a.face = a'.face → Alongside stop w (f a) (f' a')) :
    AlongsideOn x stop w (expect k >>= f) (expect k >>= f') := by
  have hexpect (g : Token → Parse β) : expect k >>= g =
      check k >>= fun b => if b = true then advance >>= g else (peek >>= unexpected) >>= g := by
    unfold expect
    rw [bind_assoc]
    refine bind_congr fun b => ?_
    cases b <;> rfl
  have hstuck (b : Token) : Stuck b ((peek >>= unexpected) >>= f) :=
    (stuck_peek_bind (stuck_unexpected b)).bind
  by_cases hx : x.1 = k
  · rw [hexpect, hexpect]
    refine alongsideOn_check_ite (settled_of_ne (hx ▸ hk) stop) (fun _ => ?_)
      fun hne => absurd hx hne
    exact alongsideOn_advance_bind (hx ▸ hk) fun a a' ha ha' => h a a' (ha.trans ha'.symm)
  · rw [hexpect]
    refine alongsideOn_of_stuck fun b hb => stuck_check_ite (k := k) ?_ (hstuck b)
    rw [← hb] at hx
    exact hx

/-- The end of the input has to be there. -/
theorem alongsideOn_finish_bind {f f' : Token → Parse β}
    (h : ∀ a a', AlongsideOn x IsEnd w (f a) (f' a')) :
    AlongsideOn x IsEnd w (expect .finish >>= f) (expect .finish >>= f') := by
  have hexpect {u : ParseState} (hu : u.next.kind = .finish) (g : Token → Parse β) :
      StateT.run (expect .finish >>= g) u = StateT.run (g u.next) u :=
    Outcome.run_bind_ok (run_expect_finish hu)
  by_cases hx : x.1 = .finish
  · constructor
    · intro s r s' hs hrun
      have hkind : s.next.kind = .finish := (congrArg Prod.fst hs).trans hx
      rw [hexpect hkind] at hrun
      exact (h s.next s.next).suffix hs hrun
    · intro rest s t hst hs r s' hrun hend
      have hkind : s.next.kind = .finish := (congrArg Prod.fst hs).trans hx
      rw [hexpect hkind] at hrun
      have hsuffix := (h s.next s.next).suffix hs hrun
      have hfront := hend (kind_of_suffix hst.endsInput List.suffix_rfl hsuffix hkind)
      have hkind' : t.next.kind = .finish := by
        have hface := face_next t
        rw [(hst.of_finish hkind).2.2, show front rest = endFace from hfront] at hface
        exact congrArg Prod.fst hface
      rw [hexpect hkind']
      exact (h s.next t.next).agrees hst hs hrun hend
  · refine alongsideOn_of_stuck fun b hb => ?_
    unfold expect
    rw [bind_assoc]
    refine stuck_check_bind (fun hb' => hx ?_) (stuck_peek_bind (stuck_unexpected b)).bind
    rw [← hb]
    exact hb'

/-- Nodes are numbered differently, but nothing depends on the numbers. -/
theorem alongsideOn_register_bind {tag tag' : NodeTag} {pos pos' : Position} {f f' : Mark → Parse β}
    (h : ∀ m m', AlongsideOn x stop w (f m) (f' m')) :
    AlongsideOn x stop w (register tag pos >>= f) (register tag' pos' >>= f') where
  suffix s _ _ hx hrun := (h (s.arena.register tag pos).1 (s.arena.register tag pos).1).suffix
    (s := { s with arena := (s.arena.register tag pos).2 }) hx hrun
  agrees := by
    intro rest s t hst hx r s' hrun hend
    have hmoved : ParseState.Beside rest { s with arena := (s.arena.register tag pos).2 }
        { t with arena := (t.arena.register tag' pos').2 } := ⟨hst.faces, hst.some⟩
    exact (h _ _).agrees hmoved hx hrun hend

end Steps

/-! ## Loops -/

/-- What the next round of a loop is looked at for, or its result. -/
def Next.view (v : σ → τ) (w : β → δ) : Next σ β → Next τ δ
  | .again a => .again (v a)
  | .done b => .done (w b)

section Loops

variable {v : σ → τ} {step step' : σ → Parse (Next σ β)}

theorem alongside_iterateWithin
    (hstep : ∀ a a', v a = v a' → Alongside stop (Next.view v w) (step a) (step' a')) {n m : Nat}
    (hnm : n ≤ m) {a a' : σ} (ha : v a = v a') :
    Alongside stop w (iterateWithin step n a) (iterateWithin step' m a') := by
  induction n generalizing m a a' with
  | zero =>
    intro x
    refine alongsideOn_of_stuck fun b _ => ?_
    exact stuck_peek_bind (stuck_unexpected b)
  | succ n ih =>
    intro x
    obtain ⟨m, rfl⟩ : ∃ k, m = k + 1 := ⟨m - 1, by omega⟩
    apply (hstep a a' ha x).bind
    intro r r' hr
    cases r with
    | again b =>
      cases r' with
      | again b' => exact ih (Nat.le_of_succ_le_succ hnm) (Next.again.inj hr)
      | done b' => cases hr
    | done b =>
      cases r' with
      | again b' => cases hr
      | done b' => exact fun y => alongsideOn_pure (Next.done.inj hr)

/-- A rule that repeats a step. Where the input goes on the step may be repeated more often. -/
theorem alongside_iterate
    (hstep : ∀ a a', v a = v a' → Alongside stop (Next.view v w) (step a) (step' a')) {a a' : σ}
    (ha : v a = v a') : Alongside stop w (iterate step a) (iterate step' a') := by
  intro x
  have hiterate (g : σ → Parse (Next σ β)) (b : σ) (u : ParseState) : StateT.run (iterate g b) u =
      StateT.run (iterateWithin g (u.tokens.length + 1) b) u := rfl
  constructor
  · intro s r s' hx hrun
    rw [hiterate] at hrun
    exact (alongside_iterateWithin hstep (Nat.le_refl _) ha x).suffix hx hrun
  · intro rest s t hst hx r s' hrun hend
    rw [hiterate] at hrun
    rw [hiterate]
    have hle : s.tokens.length + 1 ≤ t.tokens.length + 1 := Nat.succ_le_succ hst.length_le
    exact (alongside_iterateWithin hstep hle ha x).agrees hst hx hrun hend

end Loops

end Parse

end Toolchain
