import Mathlib.Tactic
import Frosk.Lib.Run

/-!
# Circular singly linked lists

A ring is a list of distinct cells threaded through a `next` function that
leads from its last cell back to its first. The cell the list starts at is
an ordinary cell: `isRing_rotate` moves the start to any other cell, and the
three edits (`isRing_insert`, `isRing_unlink`, `isRing_replace`) are stated at
the start, where the change to `next` is one or two cells wide.

`scanBody` is the loop that looks round a ring for a cell with a property,
remembering the cell before it; `scan_path` says what it finds.
-/

namespace Frosk.Lib

variable {α : Type*}

-- ---------------------------------------------------------------------------
-- Paths
-- ---------------------------------------------------------------------------

/-- Following `next` from `a` runs through `l` and arrives at `b`. -/
def Path (next : α → α) : α → List α → α → Prop
  | a, [], b => a = b
  | a, x :: l, b => a = x ∧ Path next (next x) l b

/-- A path in two parts. -/
theorem path_append {next : α → α} {l₁ l₂ : List α} {a c : α} :
    Path next a (l₁ ++ l₂) c ↔ ∃ b, Path next a l₁ b ∧ Path next b l₂ c := by
  induction l₁ generalizing a with
  | nil => simp [Path]
  | cons x l ih =>
    simp only [List.cons_append, Path, ih]
    constructor
    · rintro ⟨rfl, b, h₁, h₂⟩
      exact ⟨b, ⟨rfl, h₁⟩, h₂⟩
    · rintro ⟨b, ⟨rfl, h₁⟩, h₂⟩
      exact ⟨rfl, b, h₁, h₂⟩

/-- A path depends on the links of its elements only. -/
theorem path_congr {next next' : α → α} {l : List α} {a b : α}
    (h : Path next a l b) (heq : ∀ x ∈ l, next' x = next x) : Path next' a l b := by
  induction l generalizing a with
  | nil => exact h
  | cons x l ih =>
    obtain ⟨rfl, hrest⟩ := h
    refine ⟨rfl, ?_⟩
    rw [heq a (List.mem_cons_self ..)]
    exact ih hrest fun y hy => heq y (List.mem_cons_of_mem _ hy)

/-- The cell a path starts at: its first cell, or its end. -/
theorem path_start {next : α → α} {l : List α} {a b : α} (h : Path next a l b) :
    a = l.headD b := by
  cases l with
  | nil => exact h
  | cons x l => exact h.1

-- ---------------------------------------------------------------------------
-- Rings
-- ---------------------------------------------------------------------------

/-- The cells `h :: t` form a ring: distinct, and `next` leads through them
in order and from the last one back to `h`. -/
structure IsRing (next : α → α) (h : α) (t : List α) : Prop where
  nodup : (h :: t).Nodup
  path  : Path next (next h) t h

/-- The head goes to the first one behind it. -/
theorem IsRing.next_head {next : α → α} {h : α} {t : List α} (hr : IsRing next h t) :
    next h = t.headD h :=
  path_start hr.path

/-- Any cell of a ring can serve as its start. -/
theorem isRing_rotate {next : α → α} {h x : α} {t₁ t₂ : List α}
    (hr : IsRing next h (t₁ ++ x :: t₂)) : IsRing next x (t₂ ++ h :: t₁) := by
  obtain ⟨b, h₁, rfl, h₂⟩ := path_append.mp hr.path
  refine ⟨?_, path_append.mpr ⟨h, h₂, rfl, h₁⟩⟩
  have hperm : (h :: (t₁ ++ b :: t₂)).Perm (b :: (t₂ ++ h :: t₁)) := by
    have h1 : (h :: t₁ ++ b :: t₂).Perm (b :: t₂ ++ h :: t₁) := List.perm_append_comm
    simpa using h1
  exact hperm.nodup_iff.mp hr.nodup

/-- The ring seen from a given one of its cells. -/
theorem IsRing.start_at {next : α → α} {h x : α} {t : List α} (hr : IsRing next h t)
    (hx : x ∈ h :: t) : ∃ t', IsRing next x t' ∧ (x :: t').Perm (h :: t) := by
  rcases List.mem_cons.mp hx with rfl | hx
  · exact ⟨t, hr, List.Perm.refl _⟩
  · obtain ⟨t₁, t₂, rfl⟩ := List.append_of_mem hx
    refine ⟨t₂ ++ h :: t₁, isRing_rotate hr, ?_⟩
    have hswap : (x :: t₂ ++ h :: t₁).Perm (h :: t₁ ++ x :: t₂) := List.perm_append_comm
    simpa using hswap

/-- The ring seen from the cell before a given one. -/
theorem IsRing.start_before {next : α → α} {h x : α} {t₁ t₂ : List α}
    (hr : IsRing next h (t₁ ++ x :: t₂)) :
    ∃ t', IsRing next (t₁.getLastD h) (x :: t') ∧
      (t₁.getLastD h :: x :: t').Perm (h :: (t₁ ++ x :: t₂)) := by
  rcases List.eq_nil_or_concat t₁ with rfl | ⟨l, p, rfl⟩
  · exact ⟨t₂, hr, List.Perm.refl _⟩
  · have hlast : (l.concat p).getLastD h = p := by simp
    have hr' : IsRing next h (l ++ p :: (x :: t₂)) := by simpa using hr
    rw [hlast]
    refine ⟨t₂ ++ h :: l, isRing_rotate hr', ?_⟩
    have hswap : (p :: x :: t₂ ++ h :: l).Perm (h :: l ++ p :: x :: t₂) := List.perm_append_comm
    simpa using hswap

/-- A ring depends on the links of its elements only. -/
theorem isRing_congr {next next' : α → α} {h : α} {t : List α}
    (hr : IsRing next h t) (heq : ∀ x ∈ h :: t, next' x = next x) : IsRing next' h t := by
  refine ⟨hr.nodup, ?_⟩
  rw [heq h (List.mem_cons_self ..)]
  exact path_congr hr.path fun x hx => heq x (List.mem_cons_of_mem _ hx)

/-- Linking a new cell in behind the start. -/
theorem isRing_insert {next next' : α → α} {h c : α} {t : List α}
    (hr : IsRing next h t) (hc : c ∉ h :: t) (hh : next' h = c) (hn : next' c = next h)
    (heq : ∀ x ∈ t, next' x = next x) : IsRing next' h (c :: t) := by
  have hht := List.nodup_cons.mp hr.nodup
  simp only [List.mem_cons, not_or] at hc
  refine ⟨?_, hh, ?_⟩
  · simp only [List.nodup_cons, List.mem_cons, not_or]
    exact ⟨⟨Ne.symm hc.1, hht.1⟩, hc.2, hht.2⟩
  · rw [hn]
    exact path_congr hr.path heq

/-- Leading the start past some cells to the one behind `x`. -/
theorem isRing_cut {next next' : α → α} {p x : α} {d t : List α}
    (hr : IsRing next p (d ++ x :: t)) (hp : next' p = next x)
    (heq : ∀ y ∈ t, next' y = next y) : IsRing next' p t := by
  obtain ⟨b, _, rfl, hrest⟩ := path_append.mp hr.path
  have hsub : (p :: t).Sublist (p :: (d ++ b :: t)) :=
    ((List.sublist_cons_self b t).trans (List.sublist_append_right d _)).cons_cons p
  refine ⟨hr.nodup.sublist hsub, ?_⟩
  rw [hp]
  exact path_congr hrest heq

/-- Unlinking the cell behind the start. -/
theorem isRing_unlink {next next' : α → α} {p x : α} {t : List α}
    (hr : IsRing next p (x :: t)) (hp : next' p = next x)
    (heq : ∀ y ∈ t, next' y = next y) : IsRing next' p t := by
  have hr' : IsRing next p ([] ++ x :: t) := hr
  exact isRing_cut hr' hp heq

/-- Putting a new cell in the place of the cell behind the start. -/
theorem isRing_replace {next next' : α → α} {p x c : α} {t : List α}
    (hr : IsRing next p (x :: t)) (hc : c ∉ p :: t) (hp : next' p = c) (hn : next' c = next x)
    (heq : ∀ y ∈ t, next' y = next y) : IsRing next' p (c :: t) := by
  have hnd := hr.nodup
  simp only [List.nodup_cons, List.mem_cons, not_or] at hnd hc
  refine ⟨?_, hp, ?_⟩
  · simp only [List.nodup_cons, List.mem_cons, not_or]
    exact ⟨⟨Ne.symm hc.1, hnd.1.2⟩, hc.2, hnd.2.2⟩
  · rw [hn]
    exact path_congr hr.path.2 heq

/-- Unlinking any cell but the start, through the cell before it. -/
theorem isRing_unlink_at {next next' : α → α} {h x : α} {t₁ t₂ : List α}
    (hr : IsRing next h (t₁ ++ x :: t₂)) (hp : next' (t₁.getLastD h) = next x)
    (heq : ∀ y, y ≠ t₁.getLastD h → next' y = next y) : IsRing next' h (t₁ ++ t₂) := by
  rcases List.eq_nil_or_concat t₁ with rfl | ⟨l, p, rfl⟩
  · have hh := (List.nodup_cons.mp hr.nodup).1
    refine isRing_unlink hr hp fun y hy => heq y ?_
    rintro rfl
    exact hh (List.mem_cons_of_mem _ hy)
  · -- seen from the cell before it, the cell is the one behind the start
    have hlast : (l.concat p).getLastD h = p := by simp
    rw [hlast] at hp heq
    have hr' : IsRing next p ((x :: t₂) ++ h :: l) := isRing_rotate (by simpa using hr)
    have hnd := (List.nodup_cons.mp hr'.nodup).1
    have hcut : IsRing next' p (t₂ ++ h :: l) := by
      refine isRing_unlink hr' hp fun y hy => heq y ?_
      rintro rfl
      exact hnd (List.mem_cons_of_mem _ hy)
    simpa using isRing_rotate hcut

/-- A ring of one cell. -/
theorem isRing_single {next : α → α} {h : α} (hh : next h = h) : IsRing next h [] :=
  ⟨List.nodup_singleton h, hh⟩

/-- The links do not leave the ring. -/
theorem IsRing.next_mem {next : α → α} {h x : α} {t : List α} (hr : IsRing next h t)
    (hx : x ∈ h :: t) : next x ∈ h :: t := by
  have hstart : ∀ {y : α} {s : List α}, IsRing next y s → next y ∈ y :: s := by
    intro y s hs
    rw [hs.next_head]
    cases s with
    | nil => simp
    | cons z s => simp
  rcases List.mem_cons.mp hx with rfl | hx
  · exact hstart hr
  · obtain ⟨t₁, t₂, rfl⟩ := List.append_of_mem hx
    have hmem := hstart (isRing_rotate hr)
    simp only [List.mem_cons, List.mem_append] at hmem ⊢
    tauto

/-- Only the start leads to the cell behind the start. -/
theorem IsRing.next_ne {next : α → α} {h x : α} {t : List α} (hr : IsRing next h t)
    (hx : x ∈ t) : next x ≠ next h := by
  obtain ⟨t₁, t₂, rfl⟩ := List.append_of_mem hx
  have hnd := hr.nodup
  rw [(isRing_rotate hr).next_head, hr.next_head]
  -- one side is behind `x` or is `h`, the other is before `x` or is `x`
  have hleft : (t₂ ++ h :: t₁).headD x ∈ h :: t₂ := by
    cases t₂ with
    | nil => simp
    | cons a t₂ => simp
  have hright : (t₁ ++ x :: t₂).headD h ∈ x :: t₁ := by
    cases t₁ with
    | nil => simp
    | cons a t₁ => simp
  intro heq
  rw [← heq] at hright
  simp only [List.nodup_cons, List.nodup_append, List.mem_append, List.mem_cons] at hnd hleft hright
  grind

/-- Following `next` from the start never leaves the ring. -/
theorem IsRing.iterate_mem {next : α → α} {h : α} {t : List α} (hr : IsRing next h t)
    (n : Nat) : next^[n] h ∈ h :: t := by
  induction n with
  | zero => simp
  | succ n ih =>
    rw [Function.iterate_succ_apply']
    exact hr.next_mem ih

/-- Every cell of the ring is met by following `next` from the start. -/
theorem IsRing.exists_iterate {next : α → α} {h x : α} {t : List α} (hr : IsRing next h t)
    (hx : x ∈ h :: t) : ∃ n, next^[n] h = x := by
  have hpath : ∀ {l : List α} {a b : α}, Path next a l b → x ∈ l → ∃ n, next^[n] a = x := by
    intro l
    induction l with
    | nil => simp
    | cons y l ih =>
      rintro a b ⟨rfl, hrest⟩ hmem
      rcases List.mem_cons.mp hmem with rfl | hmem
      · exact ⟨0, rfl⟩
      · obtain ⟨n, hn⟩ := ih hrest hmem
        exact ⟨n + 1, hn⟩
  rcases List.mem_cons.mp hx with rfl | hx
  · exact ⟨0, rfl⟩
  · obtain ⟨n, hn⟩ := hpath hr.path hx
    exact ⟨n + 1, hn⟩

/-- The last cell leads to the start. -/
theorem IsRing.next_last {next : α → α} {h : α} {t : List α} (hr : IsRing next h t) :
    next (t.getLastD h) = h := by
  rcases List.eq_nil_or_concat t with rfl | ⟨l, p, rfl⟩
  · exact hr.next_head
  · have hr' : IsRing next h (l ++ p :: []) := by simpa using hr
    have hlast : (l.concat p).getLastD h = p := by simp
    rw [hlast, (isRing_rotate hr').next_head]
    rfl

/-- No other cell does. -/
theorem IsRing.eq_last {next : α → α} {h x : α} {t : List α} (hr : IsRing next h t)
    (hx : x ∈ h :: t) (hn : next x = h) : x = t.getLastD h := by
  rcases List.eq_nil_or_concat t with rfl | ⟨l, p, rfl⟩
  · simpa using hx
  · have hr' : IsRing next h (l ++ p :: []) := by simpa using hr
    have hp := isRing_rotate hr'
    have hlast : (l.concat p).getLastD h = p := by simp
    rw [hlast]
    by_contra hne
    have hmem : x ∈ [] ++ h :: l := by
      simp only [List.concat_eq_append, List.mem_cons, List.mem_append, List.not_mem_nil] at hx ⊢
      tauto
    exact hp.next_ne hmem (hn.trans hp.next_head.symm)

/-- There is no ring from a cell that no cell within reach leads back to. -/
theorem not_isRing {next : α → α} {h : α} (P : α → Prop) (hh : P h)
    (hclosed : ∀ x, P x → P (next x)) (hback : ∀ x, P x → next x ≠ h) (t : List α) :
    ¬ IsRing next h t := by
  intro hr
  obtain ⟨n, hn⟩ : ∃ n, next^[n] h = t.getLastD h := by
    refine hr.exists_iterate ?_
    rcases List.eq_nil_or_concat t with rfl | ⟨l, p, rfl⟩ <;> simp
  have hreach : ∀ n, P (next^[n] h) := by
    intro n
    induction n with
    | zero => exact hh
    | succ n ih =>
      rw [Function.iterate_succ_apply']
      exact hclosed _ ih
  exact hback _ (hn ▸ hreach n) hr.next_last

-- ---------------------------------------------------------------------------
-- The ring as a list
-- ---------------------------------------------------------------------------

/-- The cells of the list form a ring, in this order. -/
def Ring (next : α → α) : List α → Prop
  | [] => False
  | h :: t => IsRing next h t

/-- No element is on a ring twice. -/
theorem Ring.nodup {next : α → α} {l : List α} (hr : Ring next l) : l.Nodup := by
  cases l with
  | nil => exact List.nodup_nil
  | cons h t => exact IsRing.nodup hr

/-- The same ring from a later cell on. -/
theorem ring_append_comm {next : α → α} {l l' : List α} (hr : Ring next (l ++ l')) :
    Ring next (l' ++ l) := by
  cases l with
  | nil => rwa [List.append_nil]
  | cons h t =>
    cases l' with
    | nil => rwa [List.append_nil] at hr
    | cons x t' => exact isRing_rotate hr

/-- An element goes to the one behind it, and the last one to the first. -/
theorem Ring.next_eq {next : α → α} {l l' : List α} {x : α} (hr : Ring next (l ++ x :: l')) :
    next x = (l' ++ l ++ [x]).headD x := by
  have hrot : IsRing next x (l' ++ l) := ring_append_comm hr
  rw [hrot.next_head]
  cases l' ++ l with
  | nil => rfl
  | cons y t => rfl

/-- The same of a ring with no head. -/
theorem ring_congr {next next' : α → α} {l : List α} (hr : Ring next l)
    (heq : ∀ x ∈ l, next' x = next x) : Ring next' l := by
  cases l with
  | nil => exact hr
  | cons h t => exact isRing_congr hr heq

-- ---------------------------------------------------------------------------
-- Looking round a ring
-- ---------------------------------------------------------------------------

/-- One round of the search loop: leave at a cell with the property, or when
`stop` holds of the pair of cells the loop would go on with. The result tells
the two apart and keeps that pair. -/
def scanBody (next : α → α) (hit : α → Bool) (stop : α → α → Bool) :
    α × α → (α × α) ⊕ ((α × α) × Bool)
  | (prev, cur) =>
    if hit cur then .inr ((prev, cur), true)
    else if stop cur (next cur) then .inr ((cur, next cur), false)
    else .inl (cur, next cur)

/-- The search over a path that only its last cell stops: it ends at the
first cell with the property, with the cell before it in hand, or past the
whole path if there is none. -/
theorem scan_path {next : α → α} {hit : α → Bool} {stop : α → α → Bool} {b z : α} :
    ∀ {l : List α} {p a : α}, Path next a (l ++ [z]) b →
      (∀ x ∈ l, stop x (next x) = false) → stop z (next z) = true →
      (∃ l₁ x l₂, l ++ [z] = l₁ ++ x :: l₂ ∧ (∀ y ∈ l₁, hit y = false) ∧ hit x = true ∧
        Exits (scanBody next hit stop) (p, a) ((l₁.getLastD p, x), true)) ∨
      ((∀ y ∈ l ++ [z], hit y = false) ∧
        Exits (scanBody next hit stop) (p, a) ((z, b), false))
  | [], p, a, hpath, _, hz => by
    obtain ⟨rfl, rfl⟩ := hpath
    cases hh : hit a with
    | true =>
      exact Or.inl ⟨[], a, [], rfl, by simp, hh, exits_of_inr (by simp [scanBody, hh])⟩
    | false =>
      refine Or.inr ⟨by simpa using hh, exits_of_inr ?_⟩
      simp [scanBody, hh, hz]
  | x :: l, p, a, hpath, hl, hz => by
    obtain ⟨rfl, hrest⟩ := hpath
    cases hh : hit a with
    | true =>
      exact Or.inl ⟨[], a, l ++ [z], rfl, by simp, hh, exits_of_inr (by simp [scanBody, hh])⟩
    | false =>
      have hstop : stop a (next a) = false := hl a (List.mem_cons_self ..)
      have hround : scanBody next hit stop (p, a) = .inl (a, next a) := by
        simp [scanBody, hh, hstop]
      rcases scan_path (p := a) hrest (fun y hy => hl y (List.mem_cons_of_mem _ hy)) hz with
        ⟨l₁, y, l₂, heq, hbefore, hy, hex⟩ | ⟨hnone, hex⟩
      · refine Or.inl ⟨a :: l₁, y, l₂, by simp [heq], ?_, hy, ?_⟩
        · intro w hw
          rcases List.mem_cons.mp hw with rfl | hw
          · exact hh
          · exact hbefore w hw
        · have hlast : (a :: l₁).getLastD p = l₁.getLastD a := by
            cases l₁ with
            | nil => rfl
            | cons w l₁ => simp [List.getLast?_cons]
          rw [hlast]
          exact exits_of_inl hround hex
      · refine Or.inr ⟨?_, exits_of_inl hround hex⟩
        intro w hw
        rcases List.mem_cons.mp hw with rfl | hw
        · exact hh
        · exact hnone w hw

/-- The search all the way round a ring, from the cell behind the start: it
ends at the first cell with the property, the start coming last, or says that
there is none. -/
theorem scan_ring {next : α → α} {h : α} {t : List α} (hr : IsRing next h t) (hit : α → Bool)
    (stop : α → α → Bool) (hstop : ∀ x ∈ t, stop x (next x) = false)
    (hlast : stop h (next h) = true) :
    (∃ t₁ x t₂, t = t₁ ++ x :: t₂ ∧ hit x = true ∧
      Exits (scanBody next hit stop) (h, next h) ((t₁.getLastD h, x), true)) ∨
    ((∀ x ∈ t, hit x = false) ∧ hit h = true ∧
      Exits (scanBody next hit stop) (h, next h) ((t.getLastD h, h), true)) ∨
    ((∀ x ∈ h :: t, hit x = false) ∧
      Exits (scanBody next hit stop) (h, next h) ((h, next h), false)) := by
  have hpath : Path next (next h) (t ++ [h]) (next h) :=
    path_append.mpr ⟨h, hr.path, rfl, rfl⟩
  rcases scan_path (p := h) hpath hstop hlast with
    ⟨t₁, x, t₂, heq, hbefore, hx, hex⟩ | ⟨hnone, hex⟩
  · rcases List.eq_nil_or_concat t₂ with rfl | ⟨t₃, z, rfl⟩
    · obtain ⟨rfl, hxh⟩ := List.append_inj' heq rfl
      obtain rfl : h = x := by simpa using hxh
      exact .inr (.inl ⟨hbefore, hx, hex⟩)
    · have hcat : t ++ [h] = (t₁ ++ x :: t₃) ++ [z] := by simpa using heq
      obtain ⟨rfl, _⟩ := List.append_inj' hcat rfl
      exact .inl ⟨t₁, x, t₃, rfl, hx, hex⟩
  · refine .inr (.inr ⟨fun x hx => hnone x ?_, hex⟩)
    simp only [List.mem_append, List.mem_cons] at hx ⊢
    tauto

/-- The search all the way round a ring, from its first cell on. -/
theorem scan_list {next : α → α} {h : α} {t : List α} (hr : Ring next (h :: t)) (p : α)
    (hit : α → Bool) (stop : α → α → Bool) (hstop : ∀ x y, stop x y = true ↔ y = h) :
    ∃ q, Exits (scanBody next hit stop) (p, h)
      (q, ((h :: t).find? hit).isSome) ∧ ∀ x, (h :: t).find? hit = some x → q.2 = x := by
  obtain ⟨l, z, hl⟩ : ∃ l z, h :: t = l ++ [z] :=
    ⟨(h :: t).dropLast, (h :: t).getLast (by simp), (List.dropLast_append_getLast (by simp)).symm⟩
  have hz : IsRing next z l := by
    rw [hl] at hr
    exact ring_append_comm hr
  have hzh : next z = h := by
    rw [hz.next_head]
    cases l with
    | nil => exact (List.cons.inj hl).1.symm
    | cons a l => exact (List.cons.inj hl).1.symm
  have hpath : Path next h (l ++ [z]) h := by
    refine path_append.mpr ⟨z, ?_, rfl, hzh⟩
    rw [← hzh]
    exact hz.path
  have hgo : ∀ x ∈ l, stop x (next x) = false := by
    intro x hx
    refine Bool.eq_false_iff.mpr ?_
    intro hs
    exact hz.next_ne hx (((hstop _ _).mp hs).trans hzh.symm)
  rcases scan_path (p := p) hpath hgo ((hstop _ _).mpr hzh) with
    ⟨l₁, x, l₂, heq, hbefore, hx, hex⟩ | ⟨hnone, hex⟩
  · have hfind : (h :: t).find? hit = some x := by
      rw [hl, heq, List.find?_append, List.find?_cons_of_pos hx]
      have hno : l₁.find? hit = none := by
        rw [List.find?_eq_none]
        exact fun y hy => by rw [hbefore y hy]; simp
      rw [hno]
      rfl
    refine ⟨(l₁.getLastD p, x), ?_, ?_⟩
    · rw [hfind]
      exact hex
    · intro y hy
      exact Option.some.inj (hfind.symm.trans hy)
  · have hfind : (h :: t).find? hit = none := by
      rw [hl, List.find?_eq_none]
      exact fun y hy => by rw [hnone y hy]; simp
    refine ⟨(z, h), ?_, ?_⟩
    · rw [hfind]
      exact hex
    · intro y hy
      rw [hfind] at hy
      cases hy

end Frosk.Lib
