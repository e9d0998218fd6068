import Mathlib.Tactic
import Frosk.Regions.Definitions

/-!
# Regions: swapping in and out

`Returns x post` is the contract of a call: it returns and meets `post`, unless
there are no pages left. `swapin` and `swapout` change the page map at the pages
of the blocks of the region and nowhere else (`swapin_spec`, `swapout_spec`).

`Shows lo hi bs map` says that between `lo` and `hi` exactly the pages of the
blocks `bs` are present, each with its own frame: `shows_flop` is the exchange
of the blocks of one region for those of another, `shows_add` a new block.
-/

namespace Frosk.Regions

open Lib

-- ---------------------------------------------------------------------------
-- Contracts
-- ---------------------------------------------------------------------------

/-- The call returns and meets the postcondition, unless pages run out. -/
def Returns {α : Type} (x : Except Fault α) (post : α → Prop) : Prop :=
  match x with
  | .ok a => post a
  | .error f => f = .noPages

section Contracts

variable {α β : Type} {x : Except Fault α} {f : α → Except Fault β} {P P' : α → Prop}
  {Q : β → Prop}

theorem ok_bind (a : α) (f : α → Except Fault β) : (Except.ok a >>= f) = f a := rfl

/-- A sequence returns when both its parts do. -/
theorem bind_eq_ok {b : β} : x >>= f = .ok b ↔ ∃ a, x = .ok a ∧ f a = .ok b := by
  cases x with
  | ok a =>
    rw [ok_bind]
    exact ⟨fun h => ⟨a, rfl, h⟩, fun ⟨_, ha, h⟩ => Except.ok.inj ha ▸ h⟩
  | error e => exact ⟨fun h => (by cases h), fun ⟨_, ha, _⟩ => (by cases ha)⟩

/-- So what both parts give holds of the sequence. -/
theorem returns_bind (hx : Returns x P) (hf : ∀ a, P a → Returns (f a) Q) :
    Returns (x >>= f) Q := by
  cases x with
  | ok a => exact hf a hx
  | error e => exact hx

theorem returns_mono (hx : Returns x P) (h : ∀ a, P a → P' a) : Returns x P' := by
  cases x with
  | ok a => exact h a hx
  | error e => exact hx

/-- Unless pages run out, the call does return. -/
theorem exists_of_returns (hx : Returns x P) (hsup : x ≠ .error .noPages) :
    ∃ a, x = .ok a ∧ P a := by
  cases x with
  | ok a => exact ⟨a, rfl, hx⟩
  | error e => exact absurd (congrArg Except.error hx) hsup

end Contracts

-- ---------------------------------------------------------------------------
-- Blocks
-- ---------------------------------------------------------------------------

/-- The pages of a range. -/
theorem mem_pageRange {v a n : Nat} :
    v ∈ pageRange a n ↔ ∃ k, k * pageSize < n ∧ v = a + k * pageSize := by
  rw [pageRange, List.mem_map]
  constructor
  · rintro ⟨k, hk, rfl⟩
    refine ⟨k, ?_, rfl⟩
    have hlt := List.mem_range.mp hk
    unfold pageSize at *
    omega
  · rintro ⟨k, hk, rfl⟩
    refine ⟨k, List.mem_range.mpr ?_, rfl⟩
    unfold pageSize at *
    omega

/-- A block of whole pages that does not wrap. -/
structure Block.Whole (b : Block) : Prop where
  virt : b.virt % pageSize = 0
  phys : b.phys % pageSize = 0
  size : b.size % pageSize = 0
  fits : b.virt + b.size ≤ wordSize ∧ b.phys + b.size ≤ wordSize

/-- The address is the start of a page of the block. -/
def Block.HasPage (b : Block) (v : Nat) : Prop :=
  b.virt ≤ v ∧ v < b.virt + b.size ∧ (v - b.virt) % pageSize = 0

instance (b : Block) (v : Nat) : Decidable (b.HasPage v) :=
  inferInstanceAs (Decidable (_ ∧ _ ∧ _))

/-- The page map with an entry for each page of a block. -/
def mapBlock (entry : Block → Nat → Nat) (b : Block) (map : Nat → Nat) : Nat → Nat :=
  fun v => if b.HasPage v then entry b (v - b.virt) else map v

def mapBlocks (entry : Block → Nat → Nat) : List Block → (Nat → Nat) → Nat → Nat
  | [], map => map
  | b :: bs, map => mapBlocks entry bs (mapBlock entry b map)

/-- `pageto` sets the entry of its page. -/
theorem pageto_eq {virt value : Nat} {s : Space} (h : virt % pageSize = 0) :
    pageto virt value s = .ok { s with map := Function.update s.map virt value } := by
  rw [pageto, if_neg (fun hne => hne h)]

/-- `pageBlock` returns and maps each page of a whole block. -/
theorem pageBlock_spec {b : Block} (h : b.Whole) (entry : Block → Nat → Nat) (s : Space) :
    pageBlock entry b s = .ok { s with map := mapBlock entry b s.map } := by
  -- the first `n` rounds of the loop set the first `n` pages
  have hrounds : ∀ n, n * pageSize ≤ b.size →
      ((List.range n).map fun k => 0 + k * pageSize).foldlM (fun s off =>
        pageto ((b.virt + off) % wordSize) (entry b off) s) s =
      .ok { s with map := fun v =>
        if b.HasPage v ∧ v < b.virt + n * pageSize then entry b (v - b.virt) else s.map v } := by
    intro n
    induction n with
    | zero =>
      intro _
      refine congrArg Except.ok ?_
      have hmap : s.map = fun v => if b.HasPage v ∧ v < b.virt + 0 * pageSize then
          entry b (v - b.virt) else s.map v := by
        funext v
        rw [if_neg]
        rintro ⟨⟨hle, _⟩, hlt⟩
        omega
      exact congrArg (fun m => { s with map := m }) hmap
    | succ n ih =>
      intro hn
      have hfits := h.fits.1
      have hvirt := h.virt
      have hlt : (b.virt + (0 + n * pageSize)) % wordSize = b.virt + n * pageSize := by
        rw [Nat.zero_add, Nat.mod_eq_of_lt]
        unfold pageSize at *
        omega
      have hpage : (b.virt + n * pageSize) % pageSize = 0 := by
        unfold pageSize at *
        omega
      have hle : n * pageSize ≤ b.size :=
        (Nat.mul_le_mul_right pageSize (Nat.le_succ n)).trans hn
      rw [List.range_succ, List.map_append, List.foldlM_append, ih hle, ok_bind,
        List.map_singleton, List.foldlM_cons, hlt, pageto_eq hpage, ok_bind, List.foldlM_nil]
      refine congrArg Except.ok (congrArg (fun m => { s with map := m }) (funext fun v => ?_))
      by_cases hv : v = b.virt + n * pageSize
      · subst hv
        rw [Function.update_self, if_pos, Nat.zero_add, Nat.add_sub_cancel_left]
        refine ⟨⟨by omega, ?_, ?_⟩, ?_⟩ <;> unfold pageSize at * <;> omega
      · rw [Function.update_of_ne hv]
        refine if_congr (and_congr_right ?_) rfl rfl
        rintro ⟨hle, _, hmod⟩
        unfold pageSize at *
        omega
  have hnum : (b.size + (pageSize - 1)) / pageSize * pageSize = b.size := by
    have hsize := h.size
    unfold pageSize at *
    omega
  rw [pageBlock, Block.offsets, pageRange, hrounds _ (by rw [hnum])]
  refine congrArg Except.ok (congrArg (fun m => { s with map := m }) (funext fun v => ?_))
  rw [hnum, mapBlock]
  refine if_congr (and_iff_left_of_imp ?_) rfl rfl
  exact fun hpage => hpage.2.1

/-- The loop over the blocks maps them all. -/
theorem foldlM_pageBlock {bs : List Block} (h : ∀ b ∈ bs, b.Whole) (entry : Block → Nat → Nat)
    (f : Space → Block → Except Fault Space) (hf : ∀ s, ∀ b ∈ bs, f s b = pageBlock entry b s)
    (s : Space) : bs.foldlM f s = .ok { s with map := mapBlocks entry bs s.map } := by
  induction bs generalizing s with
  | nil => rfl
  | cons b bs ih =>
    rw [List.foldlM_cons, hf s b List.mem_cons_self, pageBlock_spec (h b List.mem_cons_self)]
    exact ih (fun b' hb' => h b' (List.mem_cons_of_mem _ hb'))
      (fun s b' hb' => hf s b' (List.mem_cons_of_mem _ hb')) _

section MapBlocks

variable {entry : Block → Nat → Nat} {bs : List Block} {map : Nat → Nat} {v : Nat}

/-- A page of no block keeps its entry. -/
theorem mapBlocks_outside (h : ∀ b ∈ bs, ¬ b.HasPage v) : mapBlocks entry bs map v = map v := by
  induction bs generalizing map with
  | nil => rfl
  | cons b bs ih =>
    rw [mapBlocks, ih fun b' hb' => h b' (List.mem_cons_of_mem _ hb'), mapBlock,
      if_neg (h b List.mem_cons_self)]

/-- Blocks that share no page. -/
def Apart (bs : List Block) : Prop :=
  bs.Pairwise fun b c => b.virt + b.size ≤ c.virt ∨ c.virt + c.size ≤ b.virt

/-- A page of a block gets the entry of the block. -/
theorem mapBlocks_inside (hap : Apart bs) {b : Block} (hb : b ∈ bs) (hv : b.HasPage v) :
    mapBlocks entry bs map v = entry b (v - b.virt) := by
  induction bs generalizing map with
  | nil => simp at hb
  | cons c bs ih =>
    obtain ⟨hc, hbs⟩ := List.pairwise_cons.mp hap
    rw [mapBlocks]
    rcases List.mem_cons.mp hb with rfl | hb
    · rw [mapBlocks_outside, mapBlock, if_pos hv]
      rintro d hd ⟨hle, hlt, _⟩
      obtain ⟨hle', hlt', _⟩ := hv
      have := hc d hd
      omega
    · exact ih hbs hb

/-- Unmapping leaves what is not mapped. -/
theorem mapBlocks_zero_of_zero (h : map v = 0) : mapBlocks (fun _ _ => 0) bs map v = 0 := by
  induction bs generalizing map with
  | nil => exact h
  | cons b bs ih =>
    refine ih ?_
    rw [mapBlock, h, ite_self]

/-- It clears the pages of the blocks. -/
theorem mapBlocks_zero {b : Block} (hb : b ∈ bs) (hv : b.HasPage v) :
    mapBlocks (fun _ _ => 0) bs map v = 0 := by
  induction bs generalizing map with
  | nil => simp at hb
  | cons c bs ih =>
    rw [mapBlocks]
    rcases List.mem_cons.mp hb with rfl | hb
    · refine mapBlocks_zero_of_zero ?_
      rw [mapBlock, if_pos hv]
    · exact ih hb

end MapBlocks

-- ---------------------------------------------------------------------------
-- swapin, swapout and swapflop
-- ---------------------------------------------------------------------------

/-- The blocks of a region, none for `NULL`. -/
def Space.blocks (s : Space) (r : Ptr) : List Block := if r = NULL then [] else (s.rgn r).blocks

theorem blocks_null {s : Space} : s.blocks NULL = [] := rfl

theorem blocks_of_ne {s : Space} {r : Ptr} (h : r ≠ NULL) : s.blocks r = (s.rgn r).blocks :=
  if_neg h

/-- `swapin` maps the blocks of a region that overlaps none. -/
theorem swapin_spec {r : Ptr} {s : Space} (flags : Nat)
    (hover : ∀ y ∈ s.swapped, overlap (s.rgn r) (s.rgn y) = false)
    (hwhole : ∀ b ∈ (s.rgn r).blocks, b.Whole) :
    swapin r flags s = .ok ({ s with
      swapped := r :: s.swapped
      map := mapBlocks (blockEntry flags) (s.rgn r).blocks s.map }, true) := by
  have hnone : ¬ (s.swapped.any fun y => overlap (s.rgn r) (s.rgn y)) = true := by
    rw [List.any_eq_true]
    rintro ⟨y, hy, hyes⟩
    rw [hover y hy] at hyes
    cases hyes
  rw [swapin, if_neg hnone]
  dsimp only
  rw [foldlM_pageBlock hwhole (blockEntry flags) _ fun _ _ _ => rfl, ok_bind]

/-- `swapout` unmaps the blocks of a region that is swapped in. -/
theorem swapout_spec {r : Ptr} {s : Space} (hmem : r ∈ s.swapped)
    (hwhole : ∀ b ∈ (s.rgn r).blocks, b.Whole) :
    swapout r s = .ok { s with
      swapped := s.swapped.erase r
      map := mapBlocks (fun _ _ => 0) (s.rgn r).blocks s.map } := by
  rw [swapout, foldlM_pageBlock hwhole (fun _ _ => 0) _
    fun s b hb => if_neg fun hne => hne (hwhole b hb).virt, ok_bind]
  exact if_pos hmem

/-- `swapflop` unmaps the one and maps the other. -/
theorem swapflop_spec (old new : Ptr) {s : Space} (flags : Nat)
    (hold : old ≠ NULL → old ∈ s.swapped) (hnull : NULL ∉ s.swapped)
    (hover : new ≠ NULL → ∀ y ∈ s.swapped.erase old, overlap (s.rgn new) (s.rgn y) = false)
    (hout : ∀ b ∈ s.blocks old, b.Whole) (hin : ∀ b ∈ s.blocks new, b.Whole) :
    swapflop old new flags s = .ok ({ s with
      swapped := if new = NULL then s.swapped.erase old else new :: s.swapped.erase old
      map := mapBlocks (blockEntry flags) (s.blocks new)
        (mapBlocks (fun _ _ => 0) (s.blocks old) s.map) }, true) := by
  have hfirst : (if old ≠ NULL then swapout old s else .ok s) = .ok { s with
      swapped := s.swapped.erase old
      map := mapBlocks (fun _ _ => 0) (s.blocks old) s.map } := by
    by_cases ho : old = NULL
    · subst ho
      rw [if_neg (fun hne => hne rfl), List.erase_of_not_mem hnull, blocks_null]
      rfl
    · rw [blocks_of_ne ho] at hout ⊢
      rw [if_pos ho, swapout_spec (hold ho) hout]
  rw [swapflop, hfirst, ok_bind]
  by_cases hn : new = NULL
  · subst hn
    rw [if_neg (fun hne => hne rfl), if_pos rfl, blocks_null]
    rfl
  · rw [blocks_of_ne hn] at hin ⊢
    rw [if_pos hn, if_neg hn]
    exact swapin_spec flags (hover hn) hin

-- ---------------------------------------------------------------------------
-- Stores
-- ---------------------------------------------------------------------------

/-- Where the byte `k` of a block that is mapped is. -/
theorem mapped_place (flags : Nat) (hodd : flags % 2 = 1) (hflags : flags < pageSize)
    {b : Block} (hb : b.Whole) (hwide : b.phys + b.size ≤ 2 ^ 52) {k : Nat} {s : Space}
    (hmap : ∀ v, b.HasPage v → s.map v = blockEntry flags b (v - b.virt)) (hk : k < b.size) :
    s.map ((b.virt + k) / pageSize * pageSize) % 2 = 1 ∧
      s.map ((b.virt + k) / pageSize * pageSize) / pageSize % 2 ^ 40 * pageSize +
        (b.virt + k) % pageSize = b.phys + k := by
  have hvirt := hb.virt
  have hphys := hb.phys
  have hsize := hb.size
  have hpage : b.HasPage ((b.virt + k) / pageSize * pageSize) := by
    unfold Block.HasPage pageSize at *
    omega
  have hoff : (b.virt + k) / pageSize * pageSize - b.virt = k / pageSize * pageSize := by
    unfold pageSize at *
    omega
  have hentry : s.map ((b.virt + k) / pageSize * pageSize) =
      b.phys + k / pageSize * pageSize + flags := by
    rw [hmap _ hpage, hoff, blockEntry, Nat.mod_eq_of_lt, paged_or _ hflags]
    · unfold pageSize at *
      omega
    · unfold wordSize pageSize at *
      omega
  rw [hentry]
  constructor
  · unfold pageSize at *
    omega
  · unfold pageSize at *
    omega

/-- A store to a block that is mapped is one to its frames. -/
theorem storeBytes_spec (flags : Nat) (hodd : flags % 2 = 1) (hflags : flags < pageSize)
    {b : Block} (hb : b.Whole) (hwide : b.phys + b.size ≤ 2 ^ 52) (l : List UInt8) {k : Nat}
    {s : Space} (hmap : ∀ v, b.HasPage v → s.map v = blockEntry flags b (v - b.virt))
    (hk : k + l.length ≤ b.size) :
    storeBytes (b.virt + k) l s = .ok { s with mem := s.mem.blit (b.phys + k) l } := by
  induction l generalizing k s with
  | nil =>
    rw [storeBytes, Memory.blit_nil]
  | cons c l ih =>
    rw [List.length_cons] at hk
    obtain ⟨hpresent, hplace⟩ := mapped_place flags hodd hflags hb hwide hmap (k := k) (by omega)
    rw [storeBytes, storeByte, if_pos hpresent, hplace, ok_bind]
    refine (ih (k := k + 1) (s := { s with mem := s.mem.blit (b.phys + k) [c] }) hmap
      (by omega)).trans ?_
    refine congrArg (fun m => Except.ok { s with mem := m }) ?_
    exact Memory.blit_append s.mem (b.phys + k) [c] l

-- ---------------------------------------------------------------------------
-- What is present
-- ---------------------------------------------------------------------------

/-- Between `lo` and `hi` the pages of the blocks are present, each with its own
frame, and no others. -/
structure Shows (lo hi : Nat) (bs : List Block) (map : Nat → Nat) : Prop where
  own  : ∀ v, lo ≤ v → v < hi → v % pageSize = 0 → ∀ b ∈ bs, b.HasPage v →
    map v = blockEntry 7 b (v - b.virt)
  none : ∀ v, lo ≤ v → v < hi → v % pageSize = 0 → (∀ b ∈ bs, ¬ b.HasPage v) → map v % 2 = 0

/-- The blocks lie outside of the range. -/
def Beside (lo hi : Nat) (bs : List Block) : Prop :=
  ∀ b ∈ bs, b.virt + b.size ≤ lo ∨ hi ≤ b.virt

section Shows

variable {lo hi : Nat} {bs cs : List Block} {map map' : Nat → Nat}

/-- What is shown depends on the entries between the bounds. -/
theorem shows_congr (h : Shows lo hi bs map) (heq : ∀ v, lo ≤ v → v < hi → map' v = map v) :
    Shows lo hi bs map' := by
  constructor
  · intro v hlo hhi hv b hb hpage
    rw [heq v hlo hhi]
    exact h.own v hlo hhi hv b hb hpage
  · intro v hlo hhi hv hnone
    rw [heq v hlo hhi]
    exact h.none v hlo hhi hv hnone

/-- Blocks beside the bounds change nothing there. -/
theorem mapBlocks_beside {entry : Block → Nat → Nat} (hcs : Beside lo hi cs) {v : Nat}
    (hlo : lo ≤ v) (hhi : v < hi) : mapBlocks entry cs map v = map v := by
  refine mapBlocks_outside ?_
  rintro b hb ⟨hle, hlt, _⟩
  have hbeside := hcs b hb
  omega

/-- When the blocks are unmapped nothing is shown. -/
theorem shows_out (h : Shows lo hi bs map) : Shows lo hi [] (mapBlocks (fun _ _ => 0) bs map) := by
  refine ⟨fun _ _ _ _ b hb => by simp at hb, fun v hlo hhi hv _ => ?_⟩
  by_cases hsome : ∃ b ∈ bs, b.HasPage v
  · obtain ⟨b, hb, hpage⟩ := hsome
    rw [mapBlocks_zero hb hpage]
  · have hnone : ∀ b ∈ bs, ¬ b.HasPage v := fun b hb hpage => hsome ⟨b, hb, hpage⟩
    rw [mapBlocks_outside hnone]
    exact h.none v hlo hhi hv hnone

/-- When the blocks are mapped they are shown. -/
theorem shows_in (h : Shows lo hi [] map) (hap : Apart bs) :
    Shows lo hi bs (mapBlocks (blockEntry 7) bs map) := by
  refine ⟨fun v _ _ _ b hb hpage => mapBlocks_inside hap hb hpage, fun v hlo hhi hv hnone => ?_⟩
  rw [mapBlocks_outside hnone]
  exact h.none v hlo hhi hv fun b hb => by simp at hb

/-- The blocks of one region in place of those of another. -/
theorem shows_flop (h : Shows lo hi bs map) (hap : Apart cs) :
    Shows lo hi cs (mapBlocks (blockEntry 7) cs (mapBlocks (fun _ _ => 0) bs map)) :=
  shows_in (shows_out h) hap

/-- One more page. -/
theorem shows_add (h : Shows lo hi bs map) {b : Block} (hsize : b.size = pageSize)
    (hvirt : b.virt % pageSize = 0) (hphys : b.phys < wordSize)
    (hnew : ∀ c ∈ bs, ¬ c.HasPage b.virt) :
    Shows lo hi (b :: bs) (Function.update map b.virt (b.phys ||| 7)) := by
  have hpage : ∀ {v}, v % pageSize = 0 → b.HasPage v → v = b.virt := by
    rintro v hv ⟨hle, hlt, _⟩
    rw [hsize] at hlt
    unfold pageSize at *
    omega
  have hself : b.HasPage b.virt := by
    refine ⟨le_rfl, ?_, ?_⟩
    · rw [hsize]
      exact Nat.lt_add_of_pos_right (by decide)
    · rw [Nat.sub_self]
      rfl
  constructor
  · intro v hlo hhi hv c hc hcv
    rcases List.mem_cons.mp hc with rfl | hc
    · rw [hpage hv hcv, Function.update_self, blockEntry, Nat.sub_self, Nat.add_zero,
        Nat.mod_eq_of_lt hphys]
    · have hne : v ≠ b.virt := by
        rintro rfl
        exact hnew c hc hcv
      rw [Function.update_of_ne hne]
      exact h.own v hlo hhi hv c hc hcv
  · intro v hlo hhi hv hnone
    have hne : v ≠ b.virt := by
      rintro rfl
      exact hnone b List.mem_cons_self hself
    rw [Function.update_of_ne hne]
    exact h.none v hlo hhi hv fun c hc => hnone c (List.mem_cons_of_mem _ hc)

end Shows

end Frosk.Regions
