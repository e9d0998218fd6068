import Mathlib.Tactic

/-!
# Loops and runs

Two things every component of the development needs and none of them owns.

* `iterate` is the meaning of a C loop: a body that either goes round again
  or leaves with a result, under a bound on the number of rounds. `Exits`
  forgets the bound. A loop that never leaves has no result for any bound,
  so a statement that a loop `Exits` is a statement that it terminates.
* A *system* is a relation `step s a s' b`: the call `a`, made in state `s`,
  returns `b` and leaves `s'`. `Along` says that every call of a run returns
  and meets a postcondition, `Upon` that every call that returns meets it;
  `Whenever` says that a condition holds of the state before each call.

Main results:

* `exits_unique` — a loop has at most one result.
* `along_of_invariant` — an invariant that every permitted call keeps gives
  the postcondition along the whole run.
* `along_iff_whenever`, `upon_iff_whenever` — the exact form: if a permitted
  call keeps the postcondition precisely when a condition holds before it,
  then a run keeps it precisely when all its calls meet the condition.
-/

namespace Frosk.Lib

variable {σ α β ρ : Type*}

-- ---------------------------------------------------------------------------
-- Loops
-- ---------------------------------------------------------------------------

/-- At most `n` rounds of a loop: `.inl` goes round again, `.inr` leaves. -/
def iterate (body : σ → σ ⊕ ρ) : Nat → σ → Option ρ
  | 0, _ => none
  | n + 1, s =>
    match body s with
    | .inl s' => iterate body n s'
    | .inr r => some r

/-- The loop leaves with `r`. -/
def Exits (body : σ → σ ⊕ ρ) (s : σ) (r : ρ) : Prop :=
  ∃ n, iterate body n s = some r

/-- A round that goes on needs one more. -/
theorem iterate_succ_inl {body : σ → σ ⊕ ρ} {s s' : σ} (h : body s = .inl s') (n : Nat) :
    iterate body (n + 1) s = iterate body n s' := by
  simp [iterate, h]

/-- A round that ends is the last. -/
theorem iterate_succ_inr {body : σ → σ ⊕ ρ} {s : σ} {r : ρ} (h : body s = .inr r) (n : Nat) :
    iterate body (n + 1) s = some r := by
  simp [iterate, h]

/-- A loop that ends in its first round. -/
theorem exits_of_inr {body : σ → σ ⊕ ρ} {s : σ} {r : ρ} (h : body s = .inr r) :
    Exits body s r :=
  ⟨1, iterate_succ_inr h 0⟩

theorem exits_of_inl {body : σ → σ ⊕ ρ} {s s' : σ} {r : ρ} (h : body s = .inl s')
    (hr : Exits body s' r) : Exits body s r := by
  obtain ⟨n, hn⟩ := hr
  exact ⟨n + 1, by rw [iterate_succ_inl h, hn]⟩

/-- One round more or less makes no difference to where a loop ends. -/
theorem exits_inl_iff {body : σ → σ ⊕ ρ} {s s' : σ} {r : ρ} (h : body s = .inl s') :
    Exits body s r ↔ Exits body s' r := by
  refine ⟨?_, exits_of_inl h⟩
  rintro ⟨n, hn⟩
  cases n with
  | zero => cases hn
  | succ n => exact ⟨n, by rwa [iterate_succ_inl h] at hn⟩

/-- More rounds than a loop needs change nothing. -/
theorem iterate_mono {body : σ → σ ⊕ ρ} {n m : Nat} {s : σ} {r : ρ}
    (h : iterate body n s = some r) (hle : n ≤ m) : iterate body m s = some r := by
  induction n generalizing s m with
  | zero => simp [iterate] at h
  | succ n ih =>
    obtain ⟨k, rfl⟩ : ∃ k, m = k + 1 := ⟨m - 1, by omega⟩
    cases hb : body s with
    | inl s' =>
      rw [iterate_succ_inl hb] at h ⊢
      exact ih h (by omega)
    | inr r' =>
      rw [iterate_succ_inr hb] at h ⊢
      exact h

theorem exits_unique {body : σ → σ ⊕ ρ} {s : σ} {r r' : ρ}
    (h : Exits body s r) (h' : Exits body s r') : r = r' := by
  obtain ⟨n, hn⟩ := h
  obtain ⟨m, hm⟩ := h'
  have h1 := iterate_mono hn (Nat.le_max_left n m)
  have h2 := iterate_mono hm (Nat.le_max_right n m)
  exact Option.some.inj (h1.symm.trans h2)

/-- What every round keeps holds when a loop leaves. -/
theorem iterate_invariant {body : σ → σ ⊕ ρ} (inv : σ → Prop) (post : ρ → Prop)
    (hround : ∀ s s', inv s → body s = .inl s' → inv s')
    (hleave : ∀ s r, inv s → body s = .inr r → post r) {n : Nat} {s : σ} {r : ρ} (hs : inv s)
    (h : iterate body n s = some r) : post r := by
  induction n generalizing s with
  | zero => cases h
  | succ n ih =>
    cases hb : body s with
    | inl s' =>
      rw [iterate_succ_inl hb] at h
      exact ih (hround s s' hs hb) h
    | inr r' =>
      rw [iterate_succ_inr hb] at h
      exact Option.some.inj h ▸ hleave s r' hs hb

/-- The states of a loop before each of its rounds. -/
inductive Rounds (body : σ → σ ⊕ ρ) : σ → σ → Prop
  | here (s : σ) : Rounds body s s
  | next {s s' t : σ} (h : body s = .inl s') (ht : Rounds body s' t) : Rounds body s t

/-- The states of a loop that goes on. -/
theorem rounds_inl {body : σ → σ ⊕ ρ} {s s' t : σ} (h : body s = .inl s') (ht : Rounds body s t) :
    t = s ∨ Rounds body s' t := by
  cases ht with
  | here => exact .inl rfl
  | next h₁ ht =>
    rw [h] at h₁
    exact .inr (Sum.inl.inj h₁ ▸ ht)

theorem rounds_inr {body : σ → σ ⊕ ρ} {s t : σ} {r : ρ} (h : body s = .inr r)
    (ht : Rounds body s t) : t = s := by
  cases ht with
  | here => rfl
  | next h₁ ht =>
    rw [h] at h₁
    cases h₁

-- ---------------------------------------------------------------------------
-- Bounds
-- ---------------------------------------------------------------------------

/-- A result of `x` is one of `y`, which may have one where `x` has none. -/
def Below (x y : Option α) : Prop := ∀ r, x = some r → y = some r

/-- Every computation is below itself. -/
theorem below_refl (x : Option α) : Below x x := fun _ h => h

/-- Two computations after each other keep the order. -/
theorem below_bind {α β : Type*} {x y : Option α} {f g : α → Option β} (hxy : Below x y)
    (hfg : ∀ r, Below (f r) (g r)) : Below (x.bind f) (y.bind g) := by
  intro r h
  obtain ⟨a, ha, hf⟩ := Option.bind_eq_some_iff.mp h
  exact Option.bind_eq_some_iff.mpr ⟨a, hxy a ha, hfg a r hf⟩

/-- The branches of a condition keep the order as well. -/
theorem below_ite {c : Prop} [Decidable c] {x y x' y' : Option α} (h : Below x y)
    (h' : Below x' y') : Below (if c then x else x') (if c then y else y') := by
  split
  · exact h
  · exact h'

/-- What has not returned yet is below everything. -/
theorem below_none {y : Option α} : Below none y := fun _ h => nomatch h

/-- A loop with more fuel returns what it returned. -/
theorem below_iterate (body : σ → σ ⊕ ρ) {n m : Nat} (hle : n ≤ m) (s : σ) :
    Below (iterate body n s) (iterate body m s) :=
  fun _ h => iterate_mono h hle

/-- A loop whose body gives up less often, and that may go on for longer. -/
theorem below_iterate_join {body body' : σ → σ ⊕ Option ρ}
    (hinl : ∀ s s', body s = .inl s' → body' s = .inl s')
    (hinr : ∀ s r, body s = .inr (some r) → body' s = .inr (some r)) {n m : Nat} (hle : n ≤ m)
    (s : σ) : Below (iterate body n s).join (iterate body' m s).join := by
  intro r h
  rw [Option.join_eq_some_iff] at h ⊢
  induction n generalizing s m with
  | zero => simp [iterate] at h
  | succ n ih =>
    obtain ⟨k, rfl⟩ : ∃ k, m = k + 1 := ⟨m - 1, by omega⟩
    cases hb : body s with
    | inl s' =>
      rw [iterate_succ_inl hb] at h
      rw [iterate_succ_inl (hinl s s' hb)]
      exact ih (by omega) s' h
    | inr r' =>
      rw [iterate_succ_inr hb] at h
      obtain rfl := Option.some.inj h
      rw [iterate_succ_inr (hinr s r hb)]

/-- Every bound that is large enough gives the result `r`. -/
def Settles (f : Nat → Option ρ) (r : ρ) : Prop := ∃ n, ∀ k, n ≤ k → f k = some r

/-- A computation that takes no fuel settles. -/
theorem settles_of_eq {f : Nat → Option ρ} {r : ρ} (h : ∀ k, f k = some r) : Settles f r :=
  ⟨0, fun k _ => h k⟩

/-- A loop that ends settles. -/
theorem settles_of_exits {body : σ → σ ⊕ ρ} {s : σ} {r : ρ} (h : Exits body s r) :
    Settles (fun k => iterate body k s) r := by
  obtain ⟨n, hn⟩ := h
  exact ⟨n, fun k hk => iterate_mono hn hk⟩

/-- A computation settles on one result only. -/
theorem Settles.unique {f : Nat → Option ρ} {r r' : ρ} (h : Settles f r) (h' : Settles f r') :
    r = r' := by
  obtain ⟨n, hn⟩ := h
  obtain ⟨m, hm⟩ := h'
  exact Option.some.inj ((hn _ (Nat.le_max_left n m)).symm.trans (hm _ (Nat.le_max_right n m)))

/-- One after the other, with one bound for both. -/
theorem Settles.bind {f : Nat → Option α} {g : Nat → α → Option ρ} {a : α} {r : ρ}
    (hf : Settles f a) (hg : Settles (fun k => g k a) r) :
    Settles (fun k => (f k).bind (g k)) r := by
  obtain ⟨n, hn⟩ := hf
  obtain ⟨m, hm⟩ := hg
  refine ⟨max n m, ?_⟩
  intro k hk
  simp only [hn k (le_of_max_le_left hk), Option.bind_some]
  exact hm k (le_of_max_le_right hk)

/-- Every bound that is large enough gives `r`, and no bound anything else. -/
structure Only (f : Nat → Option ρ) (r : ρ) : Prop where
  settles : Settles f r
  only    : ∀ k r', f k = some r' → r' = r

/-- What settles and is kept by more fuel has no other result. -/
theorem Settles.toOnly {f : Nat → Option ρ} {r : ρ} (h : Settles f r)
    (hbelow : ∀ k k', k ≤ k' → Below (f k) (f k')) : Only f r where
  settles := h
  only k r' hk := by
    obtain ⟨n, hn⟩ := h
    have hlarge := hbelow k (max k n) (le_max_left k n) r' hk
    exact Option.some.inj (hlarge.symm.trans (hn _ (le_max_right k n)))

/-- The function returns exactly if `c` holds, and then something that `P` holds of. -/
structure ReturnsIff (f : Nat → Option ρ) (c : Prop) (P : ρ → Prop) : Prop where
  returns : c → ∃ r, Only f r ∧ P r
  never   : ¬ c → ∀ k, f k = none

section Returning

variable {f : Nat → Option α} {g : Nat → α → Option ρ} {c c' : Prop} {P P' : α → Prop} {Q : ρ → Prop} {a : α}

/-- A computation that always returns. -/
theorem returnsIff_some (h : P a) : ReturnsIff (fun _ => some a) True P where
  returns _ := ⟨a, ⟨settles_of_eq fun _ => rfl, fun _ _ heq => (Option.some.inj heq).symm⟩, h⟩
  never hnot := absurd trivial hnot

/-- The condition may be replaced by an equal one. -/
theorem ReturnsIff.congr (h : ReturnsIff f c P) (hc : c' ↔ c) : ReturnsIff f c' P :=
  ⟨fun h' => h.returns (hc.mp h'), fun h' => h.never fun h => h' (hc.mpr h)⟩

theorem ReturnsIff.mono (h : ReturnsIff f c P) (hPP : ∀ r, P r → P' r) : ReturnsIff f c P' :=
  ⟨fun hc => (h.returns hc).imp fun r hr => ⟨hr.1, hPP r hr.2⟩, h.never⟩

/-- One call after another. -/
theorem ReturnsIff.bind (hf : ReturnsIff f c P) (hg : ∀ a, P a → ReturnsIff (fun k => g k a) c' Q) :
    ReturnsIff (fun k => (f k).bind (g k)) (c ∧ c') Q where
  returns hc := by
    obtain ⟨a, ha, hP⟩ := hf.returns hc.1
    obtain ⟨r, hr, hQ⟩ := (hg a hP).returns hc.2
    refine ⟨r, ⟨ha.settles.bind hr.settles, ?_⟩, hQ⟩
    intro k r' hk
    obtain ⟨a', ha', hr'⟩ := Option.bind_eq_some_iff.mp hk
    obtain rfl := ha.only k a' ha'
    exact hr.only k r' hr'
  never hc k := by
    rw [Option.bind_eq_none_iff]
    intro a hk
    by_cases h : c
    · obtain ⟨a', ha', hP⟩ := hf.returns h
      obtain rfl := ha'.only k a hk
      exact (hg a hP).never (fun h' => hc ⟨h, h'⟩) k
    · rw [hf.never h k] at hk
      cases hk

/-- The first of two computations has one result, so the second one decides. -/
theorem Only.bind (hf : Only f a) (hg : ReturnsIff (fun k => g k a) c Q) :
    ReturnsIff (fun k => (f k).bind (g k)) c Q := by
  have hreturns : ReturnsIff f True (· = a) := ⟨fun _ => ⟨a, hf, rfl⟩, fun h => absurd trivial h⟩
  have hbind : ReturnsIff (fun k => (f k).bind (g k)) (True ∧ c) Q :=
    hreturns.bind fun a' ha' => by rw [ha']; exact hg
  exact hbind.congr ⟨fun h => ⟨trivial, h⟩, fun h => h.2⟩

/-- A result may be passed through a function. -/
theorem Only.map (h : Only f a) (g : α → ρ) : Only (fun k => (f k).map g) (g a) where
  settles := by
    obtain ⟨n, hn⟩ := h.settles
    exact ⟨n, fun k hk => by simp only [hn k hk, Option.map_some]⟩
  only k r' hk := by
    obtain ⟨a', ha', rfl⟩ := Option.map_eq_some_iff.mp hk
    rw [h.only k a' ha']

/-- A property of the result may be passed through a function too. -/
theorem ReturnsIff.map (h : ReturnsIff f c P) (g : α → ρ) (hPQ : ∀ a, P a → Q (g a)) :
    ReturnsIff (fun k => (f k).map g) c Q := by
  have hbind : ReturnsIff (fun k => (f k).bind fun a => some (g a)) (c ∧ True) Q :=
    h.bind fun a ha => returnsIff_some (hPQ a ha)
  simp only [Option.map_eq_bind]
  exact hbind.congr ⟨fun h => ⟨h, trivial⟩, fun h => h.1⟩

end Returning

/-- A function that ends with a loop has the results of the loop. -/
theorem settles_iterate_iff {body : σ → σ ⊕ Option α} {s : σ} {g : α → ρ} {f : Nat → Option ρ}
    {n : Nat} (h : ∀ k, n ≤ k → f k = ((iterate body k s).join).map g) {r : ρ} :
    Settles f r ↔ ∃ a, Exits body s (some a) ∧ g a = r := by
  constructor
  · rintro ⟨m, hm⟩
    have hk := (h _ (Nat.le_max_left n m)).symm.trans (hm _ (Nat.le_max_right n m))
    obtain ⟨a, ha, hr⟩ := Option.map_eq_some_iff.mp hk
    exact ⟨a, ⟨_, Option.join_eq_some_iff.mp ha⟩, hr⟩
  · rintro ⟨a, ⟨m, hm⟩, rfl⟩
    refine ⟨max n m, ?_⟩
    intro k hk
    rw [h k (le_of_max_le_left hk), iterate_mono hm (le_of_max_le_right hk)]
    rfl

/-- A function that spends one unit before it goes on. -/
theorem settles_succ {f : Nat → Option ρ} {r : ρ} (h : Settles (fun k => f (k + 1)) r) :
    Settles f r := by
  obtain ⟨n, hn⟩ := h
  refine ⟨n + 1, ?_⟩
  intro k hk
  obtain ⟨j, rfl⟩ : ∃ j, k = j + 1 := ⟨k - 1, by omega⟩
  exact hn j (by omega)

-- ---------------------------------------------------------------------------
-- Runs
-- ---------------------------------------------------------------------------

/-- Every call of the run returns, and each meets `post`. -/
def Along (step : σ → α → σ → β → Prop) (post : σ → α → σ → β → Prop) :
    σ → List α → Prop
  | _, [] => True
  | s, a :: as => ∃ s' b, step s a s' b ∧ post s a s' b ∧ Along step post s' as

/-- Every call of the run that returns meets `post`. -/
def Upon (step : σ → α → σ → β → Prop) (post : σ → α → σ → β → Prop) :
    σ → List α → Prop
  | _, [] => True
  | s, a :: as => ∀ s' b, step s a s' b → post s a s' b ∧ Upon step post s' as

/-- The condition holds in the state before each call of the run. -/
def Whenever (step : σ → α → σ → β → Prop) (cond : σ → α → Prop) : σ → List α → Prop
  | _, [] => True
  | s, a :: as => cond s a ∧ ∀ s' b, step s a s' b → Whenever step cond s' as

/-- A condition that allows more holds in more runs. -/
theorem whenever_mono {step : σ → α → σ → β → Prop} {c d : σ → α → Prop}
    (hcd : ∀ s a, c s a → d s a) :
    ∀ {as : List α} {s : σ}, Whenever step c s as → Whenever step d s as
  | [], _, _ => trivial
  | _ :: _, _, ⟨hc, hrest⟩ =>
    ⟨hcd _ _ hc, fun s' b hstep => whenever_mono hcd (hrest s' b hstep)⟩

/-- What always holds holds in every run. -/
theorem whenever_of_forall {step : σ → α → σ → β → Prop} {c : σ → α → Prop}
    (hc : ∀ s a, c s a) : ∀ {as : List α} {s : σ}, Whenever step c s as
  | [], _ => trivial
  | _ :: _, _ => ⟨hc _ _, fun _ _ _ => whenever_of_forall hc⟩

/-- Two conditions hold when both do. -/
theorem whenever_and {step : σ → α → σ → β → Prop} {c d : σ → α → Prop} :
    ∀ {as : List α} {s : σ}, Whenever step c s as → Whenever step d s as →
      Whenever step (fun s a => c s a ∧ d s a) s as
  | [], _, _, _ => trivial
  | _ :: _, _, ⟨hc, hcr⟩, ⟨hd, hdr⟩ =>
    ⟨⟨hc, hd⟩, fun s' b hstep => whenever_and (hcr s' b hstep) (hdr s' b hstep)⟩

/-- **Invariant rule.** A call permitted in a state of the invariant returns,
meets the postcondition and leads back to the invariant: then so does every
permitted run. -/
theorem along_of_invariant {step post : σ → α → σ → β → Prop} {inv : σ → Prop}
    {allowed : σ → α → Prop}
    (hstep : ∀ s a, inv s → allowed s a →
      ∃ s' b, step s a s' b ∧ post s a s' b ∧ inv s') :
    ∀ {as : List α} {s : σ}, inv s → Whenever step allowed s as → Along step post s as
  | [], _, _, _ => trivial
  | a :: _, s, hinv, ⟨hal, hrest⟩ => by
    obtain ⟨s', b, hs, hp, hi⟩ := hstep s a hinv hal
    exact ⟨s', b, hs, hp, along_of_invariant hstep hi (hrest s' b hs)⟩

/-- **Exact condition rule.** -/
theorem along_iff_whenever {step post : σ → α → σ → β → Prop} {inv : σ → Prop}
    {allowed cond : σ → α → Prop}
    (hgood : ∀ s a, inv s → allowed s a → cond s a →
      ∃ s' b, step s a s' b ∧ post s a s' b ∧ inv s')
    (hbad : ∀ s a s' b, inv s → allowed s a → ¬ cond s a → step s a s' b →
      ¬ post s a s' b)
    (hdet : ∀ s a s₁ b₁ s₂ b₂, step s a s₁ b₁ → step s a s₂ b₂ → s₁ = s₂ ∧ b₁ = b₂)
    {as : List α} {s : σ} (hinv : inv s) (hal : Whenever step allowed s as) :
    Along step post s as ↔ Whenever step cond s as := by
  constructor
  · intro hrun
    induction as generalizing s with
    | nil => trivial
    | cons a as ih =>
      obtain ⟨s', b, hs, hp, hrest⟩ := hrun
      have hc : cond s a := by
        by_contra hn
        exact hbad s a s' b hinv hal.1 hn hs hp
      obtain ⟨t, c, ht, _, hti⟩ := hgood s a hinv hal.1 hc
      refine ⟨hc, ?_⟩
      intro s₁ b₁ h₁
      obtain ⟨rfl, rfl⟩ := hdet _ _ _ _ _ _ h₁ hs
      obtain ⟨rfl, rfl⟩ := hdet _ _ _ _ _ _ ht h₁
      exact ih hti (hal.2 _ _ h₁) hrest
  · intro hc
    have hstep : ∀ s a, inv s → (allowed s a ∧ cond s a) →
        ∃ s' b, step s a s' b ∧ post s a s' b ∧ inv s' :=
      fun s a hi h => hgood s a hi h.1 h.2
    exact along_of_invariant hstep hinv (whenever_and hal hc)

/-- What each step keeps holds in the whole run. -/
theorem upon_of_invariant {step post : σ → α → σ → β → Prop} {inv : σ → Prop}
    {allowed : σ → α → Prop}
    (hstep : ∀ s a s' b, inv s → allowed s a → step s a s' b → post s a s' b ∧ inv s') :
    ∀ {as : List α} {s : σ}, inv s → Whenever step allowed s as → Upon step post s as
  | [], _, _, _ => trivial
  | a :: _, s, hinv, ⟨hal, hrest⟩ => fun s' b hs =>
    ⟨(hstep s a s' b hinv hal hs).1,
      upon_of_invariant hstep (hstep s a s' b hinv hal hs).2 (hrest s' b hs)⟩

/-- **Exact condition rule**, for calls that may fail to return. -/
theorem upon_iff_whenever {step post : σ → α → σ → β → Prop} {inv : σ → Prop}
    {allowed cond : σ → α → Prop}
    (hgood : ∀ s a s' b, inv s → allowed s a → cond s a → step s a s' b →
      post s a s' b ∧ inv s')
    (hbad : ∀ s a, inv s → allowed s a → ¬ cond s a →
      ∃ s' b, step s a s' b ∧ ¬ post s a s' b)
    {as : List α} {s : σ} (hinv : inv s) (hal : Whenever step allowed s as) :
    Upon step post s as ↔ Whenever step cond s as := by
  constructor
  · intro hrun
    induction as generalizing s with
    | nil => trivial
    | cons a as ih =>
      have hc : cond s a := by
        by_contra hn
        obtain ⟨s', b, hs, hnp⟩ := hbad s a hinv hal.1 hn
        exact hnp (hrun s' b hs).1
      refine ⟨hc, ?_⟩
      intro s' b hs
      exact ih (hgood s a s' b hinv hal.1 hc hs).2 (hal.2 s' b hs) (hrun s' b hs).2
  · intro hc
    have hstep : ∀ s a s' b, inv s → (allowed s a ∧ cond s a) → step s a s' b →
        post s a s' b ∧ inv s' :=
      fun s a s' b hi h hs => hgood s a s' b hi h.1 h.2 hs
    exact upon_of_invariant hstep hinv (whenever_and hal hc)

/-- What the invariant gives holds before every call, if all postconditions are met. -/
theorem whenever_of_upon {step post : σ → α → σ → β → Prop} {inv : σ → Prop} {cond : σ → α → Prop}
    {as : List α} {s : σ} (hcond : ∀ s a, inv s → cond s a)
    (hinv : ∀ s, ∀ a ∈ as, ∀ s' b, inv s → step s a s' b → post s a s' b → inv s') (hs : inv s)
    (h : Upon step post s as) : Whenever step cond s as := by
  induction as generalizing s with
  | nil => trivial
  | cons a as ih =>
    refine ⟨hcond s a hs, ?_⟩
    intro s' b hstep
    obtain ⟨hpost, hupon⟩ := h s' b hstep
    have hs' := hinv s a List.mem_cons_self s' b hs hstep hpost
    exact ih (fun s a ha => hinv s a (List.mem_cons_of_mem _ ha)) hs' hupon

/-- **Exact condition rule**, where it is not known which calls return: the calls that do meet the
postcondition precisely when the condition holds before each of them. -/
theorem upon_iff_upon {step post : σ → α → σ → β → Prop} {inv : σ → Prop} {cond : σ → α → Prop}
    {as : List α} {s : σ}
    (hiff : ∀ s s' b, ∀ a ∈ as, inv s → step s a s' b → (post s a s' b ↔ cond s a))
    (hinv : ∀ s s' b, ∀ a ∈ as, inv s → step s a s' b → post s a s' b → inv s') (hs : inv s) :
    Upon step post s as ↔ Upon step (fun s a _ _ => cond s a) s as := by
  induction as generalizing s with
  | nil => rfl
  | cons a as ih =>
    have hrest : ∀ t, inv t → (Upon step post t as ↔ Upon step (fun s a _ _ => cond s a) t as) :=
      fun t ht => ih (fun s s' b c hc => hiff s s' b c (List.mem_cons_of_mem a hc))
        (fun s s' b c hc => hinv s s' b c (List.mem_cons_of_mem a hc)) ht
    constructor
    · intro h s' b hstep
      obtain ⟨hpost, hupon⟩ := h s' b hstep
      have hs' := hinv s s' b a List.mem_cons_self hs hstep hpost
      exact ⟨(hiff s s' b a List.mem_cons_self hs hstep).mp hpost, (hrest s' hs').mp hupon⟩
    · intro h s' b hstep
      obtain ⟨hcond, hupon⟩ := h s' b hstep
      have hpost := (hiff s s' b a List.mem_cons_self hs hstep).mpr hcond
      have hs' := hinv s s' b a List.mem_cons_self hs hstep hpost
      exact ⟨hpost, (hrest s' hs').mpr hupon⟩

-- ---------------------------------------------------------------------------
-- Checking a run of an executable system
-- ---------------------------------------------------------------------------

/-- The function `f` computes calls of the system: where it has a result, the
system has no other. It may give up on some calls. -/
def Computes (f : σ → α → Option (σ × β)) (step : σ → α → σ → β → Prop) : Prop :=
  ∀ s a s₁ b₁ s' b, f s a = some (s₁, b₁) → step s a s' b → s' = s₁ ∧ b = b₁

/-- Calls with a bound on their loops: a larger bound changes no result. -/
def Fueled (call : σ → α → Nat → Option (σ × β)) : Prop :=
  ∀ s a n m r, n ≤ m → call s a n = some r → call s a m = some r

/-- A call has one result, whatever the fuel. -/
theorem Fueled.unique {call : σ → α → Nat → Option (σ × β)} (h : Fueled call) {s : σ} {a : α}
    {n m : Nat} {r r' : σ × β} (hn : call s a n = some r) (hm : call s a m = some r') :
    r = r' := by
  have h₁ := h s a n _ r (Nat.le_max_left n m) hn
  have h₂ := h s a m _ r' (Nat.le_max_right n m) hm
  exact Option.some.inj (h₁.symm.trans h₂)

/-- A call with fuel computes its step. -/
theorem Fueled.computes {call : σ → α → Nat → Option (σ × β)} (h : Fueled call) (n : Nat) :
    Computes (fun s a => call s a n) (fun s a s' b => ∃ k, call s a k = some (s', b)) := by
  rintro s a s₁ b₁ s' b hn ⟨k, hk⟩
  exact Prod.mk.inj (h.unique hk hn)

/-- A step with no output, computed by a function. -/
theorem computes_of_eq {g : σ → α → Option σ} {step : σ → α → σ → Unit → Prop}
    (hg : ∀ s a s' b, step s a s' b → g s a = some s') :
    Computes (fun s a => (g s a).map fun s' => (s', ())) step := by
  intro s a s₁ b₁ s' b h hstep
  simp only [hg s a s' b hstep, Option.map_some] at h
  exact ⟨congrArg Prod.fst (Option.some.inj h), rfl⟩

/-- A call that has a result is a step. -/
theorem step_of_eq {g : σ → α → Option σ} {step : σ → α → σ → Unit → Prop}
    (hg : ∀ s a s' b, g s a = some s' → step s a s' b) {s s' : σ} {a : α} {b : Unit}
    (h : ((g s a).map fun s' => (s', ())) = some (s', b)) : step s a s' b := by
  obtain ⟨s₁, hs₁, heq⟩ := Option.map_eq_some_iff.mp h
  rw [← (Prod.mk.inj heq).1]
  exact hg s a s₁ b hs₁

/-- Runs the calls and checks the condition before each. -/
def checkRun (f : σ → α → Option (σ × β)) (cond : σ → α → Bool) : σ → List α → Bool
  | _, [] => true
  | s, a :: as =>
    cond s a && match f s a with
      | some (s', _) => checkRun f cond s' as
      | none => as.isEmpty

/-- What the check of a run accepts satisfies the condition. -/
theorem whenever_of_checkRun {step : σ → α → σ → β → Prop} {f : σ → α → Option (σ × β)}
    (hf : Computes f step) {cond : σ → α → Prop} [∀ s a, Decidable (cond s a)] :
    ∀ {as : List α} {s : σ}, checkRun f (fun s a => decide (cond s a)) s as = true →
      Whenever step cond s as
  | [], _, _ => trivial
  | a :: as, s, h => by
    rw [checkRun, Bool.and_eq_true, decide_eq_true_eq] at h
    refine ⟨h.1, ?_⟩
    intro s' b hs
    have hrest := h.2
    cases hr : f s a with
    | none =>
      rw [hr, List.isEmpty_iff] at hrest
      rw [hrest]
      trivial
    | some r =>
      obtain ⟨s₁, b₁⟩ := r
      obtain ⟨rfl, rfl⟩ := hf s a s₁ b₁ s' b hr hs
      rw [hr] at hrest
      exact whenever_of_checkRun hf hrest

/-- Runs the calls and checks a postcondition after each. -/
def checkPost (f : σ → α → Option (σ × β)) (q : σ → α → σ → β → Bool) : σ → List α → Bool
  | _, [] => true
  | s, a :: as =>
    match f s a with
    | some (s', b) => q s a s' b && checkPost f q s' as
    | none => true

/-- A run that keeps a postcondition passes every check that follows from it. -/
theorem checkPost_of_along {step post : σ → α → σ → β → Prop} {f : σ → α → Option (σ × β)}
    (hf : Computes f step) {q : σ → α → σ → β → Bool}
    (hq : ∀ s a s' b, post s a s' b → q s a s' b = true) :
    ∀ {as : List α} {s : σ}, Along step post s as → checkPost f q s as = true
  | [], _, _ => rfl
  | a :: as, s, ⟨s', b, hs, hp, hrest⟩ => by
    rw [checkPost]
    cases hr : f s a with
    | none => rfl
    | some r =>
      obtain ⟨s₁, b₁⟩ := r
      obtain ⟨rfl, rfl⟩ := hf s a s₁ b₁ s' b hr hs
      rw [Bool.and_eq_true]
      exact ⟨hq s a s' b hp, checkPost_of_along hf hq hrest⟩

/-- What holds after each step is what the check finds. -/
theorem checkPost_of_upon {step post : σ → α → σ → β → Prop} {f : σ → α → Option (σ × β)}
    (hf : ∀ s a s' b, f s a = some (s', b) → step s a s' b) {q : σ → α → σ → β → Bool}
    (hq : ∀ s a s' b, post s a s' b → q s a s' b = true) :
    ∀ {as : List α} {s : σ}, Upon step post s as → checkPost f q s as = true
  | [], _, _ => rfl
  | a :: as, s, h => by
    rw [checkPost]
    cases hr : f s a with
    | none => rfl
    | some r =>
      obtain ⟨s₁, b₁⟩ := r
      obtain ⟨hp, hrest⟩ := h s₁ b₁ (hf s a s₁ b₁ hr)
      rw [Bool.and_eq_true]
      exact ⟨hq s a s₁ b₁ hp, checkPost_of_upon hf hq hrest⟩

-- ---------------------------------------------------------------------------
-- Runs by what they show
-- ---------------------------------------------------------------------------

/-- A run from one state to another, with the events of its steps. -/
inductive Trace (step : σ → α → σ → Prop) : σ → List α → σ → Prop
  | nil (s : σ) : Trace step s [] s
  | cons {s : σ} {e : α} {s₁ : σ} {es : List α} {s' : σ} (hstep : step s e s₁)
      (hrest : Trace step s₁ es s') : Trace step s (e :: es) s'

/-- A trace in two parts. -/
theorem trace_append {step : σ → α → σ → Prop} {es es' : List α} {s s' : σ} :
    Trace step s (es ++ es') s' ↔ ∃ s₁, Trace step s es s₁ ∧ Trace step s₁ es' s' := by
  induction es generalizing s with
  | nil =>
    constructor
    · intro h
      exact ⟨s, .nil s, h⟩
    · rintro ⟨s₁, h, h'⟩
      cases h
      exact h'
  | cons e es ih =>
    constructor
    · intro h
      cases h with
      | cons hstep hrest =>
        obtain ⟨s₁, h₁, h'⟩ := ih.mp hrest
        exact ⟨s₁, .cons hstep h₁, h'⟩
    · rintro ⟨s₁, h, h'⟩
      cases h with
      | cons hstep hrest => exact .cons hstep (ih.mpr ⟨s₁, hrest, h'⟩)

/-- A relation that each step carries on gives a run of the other system. -/
theorem trace_simulates {τ : Type*} {step : σ → α → σ → Prop} (step' : τ → α → τ → Prop)
    (rel : σ → τ → Prop)
    (hstep : ∀ s e s' t, rel s t → step s e s' → ∃ t', step' t e t' ∧ rel s' t')
    {es : List α} {s s' : σ} (h : Trace step s es s') :
    ∀ {t : τ}, rel s t → ∃ t', Trace step' t es t' ∧ rel s' t' := by
  induction h with
  | nil s => exact fun {t} hrel => ⟨t, .nil t, hrel⟩
  | @cons s e s₁ es s' hs _ ih =>
    intro t hrel
    obtain ⟨t₁, ht, hrel₁⟩ := hstep s e s₁ t hrel hs
    obtain ⟨t', htrace, hrel'⟩ := ih hrel₁
    exact ⟨t', .cons ht htrace, hrel'⟩

end Frosk.Lib
