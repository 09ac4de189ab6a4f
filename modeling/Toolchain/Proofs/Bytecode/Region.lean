import Toolchain.Proofs.Bytecode.DepthMachine

/-!
# Regions of code

A region is a stretch of a code object that is entered at its first position. It runs well if each
of its instructions is met with one depth of the stack and finds what it needs; then it is left at
known positions with known depths. It goes wrong if some position is met with two depths. Regions
that stand side by side can be put together, and the whole code object is a region that is never
left.

## Main definitions

* `CodeView.Step`, `CodeView.Reaches`: runs that find what they need
* `CodeView.Conflict`: some position is met with two depths
* `CodeView.Runs`: a region runs well, with the exits it has
* `CodeView.Behaves`: a region runs well exactly if a condition holds, and goes wrong otherwise

## Main results

* `CodeView.Runs.link`, `CodeView.Behaves.link`: two regions side by side
* `CodeView.Behaves.assignment_iff`: a code object has a depth assignment exactly if it runs well
-/

namespace Toolchain

namespace CodeView

variable {v : CodeView}

/-! ## Runs -/

/-- One step of a run, from a position with a depth to another; the instruction finds what it
needs. -/
def Step (v : CodeView) (a b : Nat × Nat) : Prop :=
  ∃ i, v.instr? a.1 = some i ∧ i.stackNeed ≤ a.2 ∧ b ∈ i.flows a.1 a.2

/-- A run from a position with a depth to another. -/
def Reaches (v : CodeView) : Nat × Nat → Nat × Nat → Prop := Relation.ReflTransGen v.Step

/-- From a position with a depth, some position is met with two depths. -/
def Conflict (v : CodeView) (p d : Nat) : Prop :=
  ∃ x a b, a ≠ b ∧ v.Reaches (p, d) (x, a) ∧ v.Reaches (p, d) (x, b)

theorem Conflict.of_reaches {p d q e : Nat} (h : v.Conflict q e) (hr : v.Reaches (p, d) (q, e)) :
    v.Conflict p d := by
  obtain ⟨x, a, b, hne, ha, hb⟩ := h
  exact ⟨x, a, b, hne, hr.trans ha, hr.trans hb⟩

/-- What is known of a region from `p` to `q` that is entered with depth `d`: the depth at each
position that is met, and the exits. -/
structure Region (v : CodeView) (p q d : Nat) (exits depths : Nat → Nat → Prop) : Prop where
  le : p ≤ q
  inside : ∀ x a, depths x a → p ≤ x ∧ x < q
  single : ∀ x a b, depths x a → depths x b → a = b
  entry : depths p d ∨ exits p d
  step : ∀ x a, depths x a → ∃ i, v.instr? x = some i ∧ i.stackNeed ≤ a ∧
    ∀ y b, (y, b) ∈ i.flows x a → depths y b ∨ exits y b
  reached : ∀ x a, depths x a ∨ exits x a → v.Reaches (p, d) (x, a)
  outside : ∀ x a, exits x a → ¬ (p ≤ x ∧ x < q)

/-- A region from `p` to `q`, entered with depth `d`, runs well and has these exits. -/
def Runs (v : CodeView) (p q d : Nat) (exits : Nat → Nat → Prop) : Prop :=
  ∃ depths, v.Region p q d exits depths

/-- The one exit with a position and a depth. -/
def Only (q e : Nat) : Nat → Nat → Prop := fun x a => x = q ∧ a = e

namespace Runs

variable {p q m d e : Nat} {E E' E₁ E₂ : Nat → Nat → Prop}

theorem le (h : v.Runs p q d E) : p ≤ q := h.elim fun _ h => h.le

theorem reaches (h : v.Runs p q d E) {x a : Nat} (hx : E x a) : v.Reaches (p, d) (x, a) :=
  h.elim fun _ h => h.reached x a (.inr hx)

theorem congr (h : v.Runs p q d E) (hE : ∀ x a, E x a ↔ E' x a) : v.Runs p q d E' := by
  have heq : E = E' := funext fun x => funext fun a => propext (hE x a)
  exact heq ▸ h

/-- A region without instructions is left at once. -/
theorem nil (p d : Nat) : v.Runs p p d (Only p d) := by
  refine ⟨fun _ _ => False, Nat.le_refl p, nofun, nofun, .inr ⟨rfl, rfl⟩, nofun, ?_, ?_⟩
  · rintro x a (h | ⟨rfl, rfl⟩)
    · exact h.elim
    · exact .refl
  · rintro x a ⟨rfl, rfl⟩
    omega

/-- A region of one instruction is left along its edges. -/
theorem instr {i : Instr} (hi : v.instr? p = some i) (hn : i.stackNeed ≤ d)
    (hself : ∀ a, (p, a) ∉ i.flows p d) :
    v.Runs p (p + 1) d fun x a => (x, a) ∈ i.flows p d := by
  refine ⟨Only p d, by omega, ?_, ?_, .inl ⟨rfl, rfl⟩, ?_, ?_, ?_⟩
  · rintro x a ⟨rfl, rfl⟩
    omega
  · rintro x a b ⟨-, rfl⟩ ⟨-, rfl⟩
    rfl
  · rintro x a ⟨rfl, rfl⟩
    exact ⟨i, hi, hn, fun y b h => .inr h⟩
  · rintro x a (⟨rfl, rfl⟩ | h)
    · exact .refl
    · exact .single ⟨i, hi, hn, h⟩
  · intro x a h hx
    obtain rfl : x = p := by omega
    exact hself a h

/-- An instruction that leads nowhere. -/
theorem stop {i : Instr} (hi : v.instr? p = some i) (hn : i.stackNeed ≤ d)
    (hf : i.flows p d = []) : v.Runs p (p + 1) d fun _ _ => False := by
  refine (Runs.instr hi hn fun a => ?_).congr fun x a => ?_
  · simp [hf]
  · simp [hf]

/-- A region is widened by instructions that are never met. -/
theorem widen (h : v.Runs p m d E) (hmq : m ≤ q) (hE : ∀ x a, E x a → ¬ (p ≤ x ∧ x < q)) :
    v.Runs p q d E := by
  obtain ⟨D, hD⟩ := h
  refine ⟨D, Nat.le_trans hD.le hmq, fun x a hx => ?_, hD.single, hD.entry, hD.step, hD.reached, hE⟩
  have := hD.inside x a hx
  omega

/-- Two regions side by side: the first one leads into the second, which may lead back to the start
of the first. -/
theorem link (h₁ : v.Runs p m d E₁) (h₂ : v.Runs m q e E₂) (hm : E₁ m e)
    (hE₁ : ∀ x a, E₁ x a → x = m ∧ a = e ∨ E x a)
    (hE₂ : ∀ x a, E₂ x a → E x a ∨ x = p ∧ a = d ∧ p < m)
    (hE : ∀ x a, E x a → (E₁ x a ∨ E₂ x a) ∧ ¬ (p ≤ x ∧ x < q)) : v.Runs p q d E := by
  obtain ⟨D₁, h₁⟩ := h₁
  obtain ⟨D₂, h₂⟩ := h₂
  have hle₁ := h₁.le
  have hle₂ := h₂.le
  -- what the first region leads to is met by the second, or is an exit of both
  have hnext : ∀ x a, E₁ x a → D₂ x a ∨ E x a := by
    intro x a hx
    rcases hE₁ x a hx with ⟨rfl, rfl⟩ | hx
    · rcases h₂.entry with h | h
      · exact .inl h
      · rcases hE₂ _ _ h with h | ⟨rfl, -, hlt⟩
        · exact .inr h
        · exact absurd hlt (Nat.lt_irrefl _)
    · exact .inr hx
  have hback : ∀ x a, E₂ x a → D₁ x a ∨ E x a := by
    intro x a hx
    rcases hE₂ x a hx with hx | ⟨rfl, rfl, hlt⟩
    · exact .inr hx
    · exact .inl (h₁.entry.resolve_right fun h => h₁.outside _ _ h ⟨Nat.le_refl _, hlt⟩)
  have hinto : v.Reaches (p, d) (m, e) := h₁.reached m e (.inr hm)
  refine ⟨fun x a => D₁ x a ∨ D₂ x a, Nat.le_trans hle₁ hle₂, ?_, ?_, ?_, ?_, ?_,
    fun x a h => (hE x a h).2⟩
  · rintro x a (h | h)
    · have := h₁.inside x a h
      omega
    · have := h₂.inside x a h
      omega
  · rintro x a b (ha | ha) (hb | hb)
    · exact h₁.single x a b ha hb
    · have := h₁.inside x a ha
      have := h₂.inside x b hb
      omega
    · have := h₂.inside x a ha
      have := h₁.inside x b hb
      omega
    · exact h₂.single x a b ha hb
  · rcases h₁.entry with h | h
    · exact .inl (.inl h)
    · exact (hnext _ _ h).imp_left .inr
  · rintro x a (h | h)
    · obtain ⟨i, hi, hn, hflows⟩ := h₁.step x a h
      refine ⟨i, hi, hn, fun y b hy => ?_⟩
      rcases hflows y b hy with h | h
      · exact .inl (.inl h)
      · exact (hnext y b h).imp_left .inr
    · obtain ⟨i, hi, hn, hflows⟩ := h₂.step x a h
      refine ⟨i, hi, hn, fun y b hy => ?_⟩
      rcases hflows y b hy with h | h
      · exact .inl (.inr h)
      · exact (hback y b h).imp_left .inl
  · rintro x a ((h | h) | h)
    · exact h₁.reached x a (.inl h)
    · exact hinto.trans (h₂.reached x a (.inl h))
    · rcases (hE x a h).1 with h | h
      · exact h₁.reached x a (.inr h)
      · exact hinto.trans (h₂.reached x a (.inr h))

/-- Two regions one after the other. -/
theorem seq {f : Nat} (h₁ : v.Runs p m d (Only m e)) (h₂ : v.Runs m q e (Only q f)) :
    v.Runs p q d (Only q f) := by
  have hle := h₁.le
  refine h₁.link h₂ ⟨rfl, rfl⟩ (fun x a h => .inl h) (fun x a h => .inl h) ?_
  rintro x a ⟨rfl, rfl⟩
  exact ⟨.inr ⟨rfl, rfl⟩, by omega⟩

end Runs

/-! ## Regions that may go wrong -/

/-- A region runs well exactly if a condition holds, and goes wrong otherwise. -/
structure Behaves (v : CodeView) (p q d : Nat) (safe : Prop) (exits : Nat → Nat → Prop) : Prop where
  le : p ≤ q
  runs : safe → v.Runs p q d exits
  conflict : ¬ safe → v.Conflict p d

theorem Runs.behaves {p q d : Nat} {E : Nat → Nat → Prop} (h : v.Runs p q d E) :
    v.Behaves p q d True E :=
  ⟨h.le, fun _ => h, fun h => absurd trivial h⟩

namespace Behaves

variable {p q m d e : Nat} {s s' s₁ s₂ : Prop} {E E' E₁ E₂ : Nat → Nat → Prop}

theorem congr (h : v.Behaves p q d s E) (hs : s ↔ s') (hE : s' → ∀ x a, E x a ↔ E' x a) :
    v.Behaves p q d s' E' :=
  ⟨h.le, fun hs' => (h.runs (hs.mpr hs')).congr (hE hs'), fun hn => h.conflict (mt hs.mp hn)⟩

/-- A region is widened by instructions that are never met. -/
theorem widen (h : v.Behaves p m d s E) (hmq : m ≤ q)
    (hE : s → ∀ x a, E x a → ¬ (p ≤ x ∧ x < q)) : v.Behaves p q d s E :=
  ⟨Nat.le_trans h.le hmq, fun hs => (h.runs hs).widen hmq (hE hs), h.conflict⟩

/-- Two regions side by side; the second one matters only if the first runs well. -/
theorem link (h₁ : v.Behaves p m d s₁ E₁) (h₂ : v.Behaves m q e s₂ E₂) (hm : s₁ → E₁ m e)
    (hE₁ : s₁ → s₂ → ∀ x a, E₁ x a → x = m ∧ a = e ∨ E x a)
    (hE₂ : s₁ → s₂ → ∀ x a, E₂ x a → E x a ∨ x = p ∧ a = d ∧ p < m)
    (hE : s₁ → s₂ → ∀ x a, E x a → (E₁ x a ∨ E₂ x a) ∧ ¬ (p ≤ x ∧ x < q)) :
    v.Behaves p q d (s₁ ∧ s₂) E := by
  refine ⟨Nat.le_trans h₁.le h₂.le, fun ⟨hs₁, hs₂⟩ => ?_, fun hn => ?_⟩
  · exact (h₁.runs hs₁).link (h₂.runs hs₂) (hm hs₁) (hE₁ hs₁ hs₂) (hE₂ hs₁ hs₂) (hE hs₁ hs₂)
  · by_cases hs₁ : s₁
    · exact (h₂.conflict fun hs₂ => hn ⟨hs₁, hs₂⟩).of_reaches ((h₁.runs hs₁).reaches (hm hs₁))
    · exact h₁.conflict hs₁

end Behaves

/-! ## The whole code object -/

/-- A step is an edge of the control flow. -/
theorem Step.exists_edge {a b : Nat × Nat} (h : v.Step a b) :
    ∃ δ, v.Edge a.1 δ b.1 ∧ (b.2 : Int) = a.2 + δ := by
  obtain ⟨i, hi, hn, hb⟩ := h
  exact (mem_flows_iff hi hn).mp hb

/-- A run is one of the depth machine. -/
theorem Reaches.machine {a b : Nat × Nat} (h : v.Reaches a b) (ha : v.Machine a.1 a.2) :
    v.Machine b.1 b.2 := by
  induction h with
  | refl => exact ha
  | tail _ hstep ih =>
    obtain ⟨δ, he, hd⟩ := hstep.exists_edge
    rw [hd]
    exact ih.step he

/-- If some position is met with two depths there is no assignment. -/
theorem Conflict.not_depthAssignment (h : v.Conflict 0 0) {depth : Nat → Nat} :
    ¬ v.DepthAssignment depth := by
  intro hd
  obtain ⟨x, a, b, hne, ha, hb⟩ := h
  have hxa := hd.machine_eq (ha.machine .start)
  have hxb := hd.machine_eq (hb.machine .start)
  exact hne (Int.natCast_inj.mp (hxa.trans hxb.symm))

/-- A code object that runs well and is never left has an assignment. -/
theorem Runs.exists_depthAssignment
    (h : v.Runs 0 v.words.size 0 fun _ _ => False) : ∃ depth, v.DepthAssignment depth := by
  obtain ⟨D, hD⟩ := h
  have hentry : D 0 0 := hD.entry.resolve_right id
  have hedge : ∀ p δ q a, D p a → v.Edge p δ q → ∃ b, D q b ∧ (b : Int) = a + δ := by
    intro p δ q a ha he
    obtain ⟨i, hi, hn, hflows⟩ := hD.step p a ha
    obtain ⟨b, hb, heq⟩ := he.exists_mem_flows hi hn
    exact ⟨b, (hflows q b hb).resolve_right id, heq⟩
  have hmet : ∀ p, v.Reachable p → ∃ a, D p a := by
    intro p hp
    induction hp with
    | refl => exact ⟨0, hentry⟩
    | tail _ he ih =>
      obtain ⟨a, ha⟩ := ih
      obtain ⟨δ, he⟩ := he
      obtain ⟨b, hb, -⟩ := hedge _ δ _ a ha he
      exact ⟨b, hb⟩
  classical
  refine ⟨fun p => if h : ∃ a, D p a then h.choose else 0, ?_, ?_, ?_, ?_⟩
  · have hex : ∃ a, D 0 a := ⟨0, hentry⟩
    rw [dif_pos hex]
    exact hD.single 0 _ _ hex.choose_spec hentry
  · intro p i hp hi
    have hex := hmet p hp
    rw [dif_pos hex]
    obtain ⟨j, hj, hn, -⟩ := hD.step p _ hex.choose_spec
    obtain rfl := Option.some.inj (hi.symm.trans hj)
    exact hn
  · intro p δ q hp he
    obtain ⟨a, ha⟩ := hmet p hp
    obtain ⟨b, hb, -⟩ := hedge p δ q a ha he
    exact (hD.inside q b hb).2
  · intro p δ q hp he
    have hex := hmet p hp
    obtain ⟨b, hb, heq⟩ := hedge p δ q _ hex.choose_spec he
    have hex' : ∃ a, D q a := ⟨b, hb⟩
    rw [dif_pos hex, dif_pos hex', hD.single q _ _ hex'.choose_spec hb]
    exact heq

/-- A code object that is never left has an assignment exactly if it runs well. -/
theorem Behaves.assignment_iff {s : Prop}
    (h : v.Behaves 0 v.words.size 0 s fun _ _ => False) :
    (∃ depth, v.DepthAssignment depth) ↔ s := by
  constructor
  · rintro ⟨depth, hd⟩
    by_contra hs
    exact (h.conflict hs).not_depthAssignment hd
  · exact fun hs => (h.runs hs).exists_depthAssignment

end CodeView

end Toolchain
