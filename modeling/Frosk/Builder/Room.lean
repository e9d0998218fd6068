import Mathlib.Tactic
import Frosk.Builder.Building

/-!
# The image builder: room in the first metadata block

When the functions that make entries return, with any block size, while the first metadata block
has room for the nodes. What is kept of the image is only what decides it (`Holds`): the block,
and the table of strings.

* `getString_returns` — `get_string` returns exactly if the string is short enough.
* `newCommon_returns`, `confirmCommon_returns` — so do the functions that call it.
-/

namespace Frosk.Builder

open Lib Fs

/-- The bytes that a node of `size` bytes takes. -/
def BlockSize.node (b : BlockSize) (size : Nat) : Nat := align (size + fnodeAddSize) b.entry

/-- The bytes that the strings `S` take beside the strings `K`. -/
def BlockSize.need (b : BlockSize) (S K : Finset CStr) : Nat :=
  ∑ str ∈ S \ K, b.node (sizeofString + (str.chars.length + 1))

variable {H : Host} {b : BlockSize} {s s' s₁ : Image} {m d x : Ptr} {ns ns' ks ks' : List Ptr}
  {rem rem' room k k' : Nat}
  {K S T : Finset CStr} {str : CStr} {name : Option CStr} {t : FnodeType}

/-- Strings take the room of their nodes, and those of both sets only once. -/
theorem BlockSize.need_union (b : BlockSize) (S T K : Finset CStr) :
    b.need (S ∪ T) K = b.need S K + b.need T (K ∪ S) :=
  sum_sdiff_union S T K _

theorem BlockSize.need_empty (b : BlockSize) (K : Finset CStr) : b.need ∅ K = 0 := by
  rw [BlockSize.need, Finset.empty_sdiff, Finset.sum_empty]

/-- A string of the table takes no room. -/
theorem BlockSize.need_of_mem (b : BlockSize) (h : str ∈ K) : b.need {str} K = 0 := by
  rw [BlockSize.need, Finset.sdiff_eq_empty_iff_subset.mpr (Finset.singleton_subset_iff.mpr h),
    Finset.sum_empty]

/-- A new one takes a node. -/
theorem BlockSize.need_of_not_mem (b : BlockSize) (h : str ∉ K) :
    b.need {str} K = b.node (sizeofString + (str.chars.length + 1)) := by
  rw [BlockSize.need, Finset.sdiff_eq_self_of_disjoint (Finset.disjoint_singleton_left.mpr h),
    Finset.sum_singleton]

/-- More rounds do not change a node. -/
theorem below_imageNode (hle : k ≤ k') (size : Nat) (s : Image) :
    Below (s.newNode H k size) (s.newNode H k' size) := by
  rw [Image.newNode, Image.newNode, Option.map_eq_bind, Option.map_eq_bind]
  exact below_bind (below_newNode hle size s.toState) fun _ => below_refl _

theorem short_union : Short (S ∪ T) ↔ Short S ∧ Short T := Finset.forall_mem_union

theorem short_empty : Short ∅ := fun str hstr => absurd hstr (Finset.notMem_empty str)

theorem short_singleton : Short {str} ↔ str.chars.length < 1999 := by
  simp only [Short, Finset.mem_singleton, forall_eq]

-- ---------------------------------------------------------------------------
-- The invariant
-- ---------------------------------------------------------------------------

/-- The nodes `ns` of the first block are given out and `rem` bytes are left. The nodes `ks` of
them are the strings `K`. -/
structure Holds (b : BlockSize) (s : Image) (m : Ptr) (ns ks : List Ptr) (rem : Nat)
    (K : Finset CStr) : Prop where
  bump  : ∃ f, Bump b s.toState m ns f rem
  given : ∀ n ∈ ks, n ∈ ns
  table : ∃ par t, Table s ks par t K
  short : Short K

/-- No node is `NULL`. -/
theorem Holds.null (h : Holds b s m ns ks rem K) : NULL ∉ ns := by
  obtain ⟨f, hbump⟩ := h.bump
  exact fun hn => (hbump.ours NULL ((hbump.mem_iff NULL).mp (List.mem_append_left _ hn))).2 rfl

/-- The table is in the nodes and the strings. -/
theorem Table.congr {par : Ptr → Ptr} {t : SearchTree Ptr} (h : Table s ks par t K) (hnode : s'.node = s.node)
    (hstring : s'.string = s.string) (hroot : s'.strtbl = s.strtbl) : Table s' ks par t K := by
  have hlinks : s'.links = s.links := by rw [Image.links, Image.links, hstring, hroot]
  refine ⟨?_, ?_, ?_, ?_⟩
  · rw [hlinks, hroot]
    exact h.shape
  · rw [hstring]
    exact h.sorted
  · rw [hnode]
    exact h.mem
  · rw [hstring]
    exact h.keys

/-- A store that neither the allocator nor the table sees. -/
theorem Holds.store (h : Holds b s m ns ks rem K) (hstate : s'.toState = s.toState)
    (hstring : s'.string = s.string)
    (hroot : s'.strtbl = s.strtbl) : Holds b s' m ns ks rem K := by
  obtain ⟨par, t, htable⟩ := h.table
  refine ⟨?_, h.given, ⟨par, t, htable.congr (congrArg State.node hstate) hstring hroot⟩, h.short⟩
  rw [hstate]
  exact h.bump

/-- The next block of the disk is nothing to the nodes. -/
theorem Holds.setLba (h : Holds b s m ns ks rem K) (lba : Nat) :
    Holds b { s with nextLba := lba } m ns ks rem K := by
  obtain ⟨f, hbump⟩ := h.bump
  obtain ⟨par, t, htable⟩ := h.table
  exact ⟨⟨f, hbump.setLba lba⟩, h.given, ⟨par, t, htable.congr rfl rfl rfl⟩, h.short⟩

/-- Nor is the type of a node that is no string. -/
theorem Holds.setType (h : Holds b s m ns ks rem K) (hx : x ∈ ns) (hxs : x ∉ ks) (t : FnodeType) :
    Holds b (s.setType x t) m ns ks rem K := by
  obtain ⟨f, hbump⟩ := h.bump
  obtain ⟨par, tree, htable⟩ := h.table
  exact ⟨⟨f, hbump.retype hx t⟩, h.given, ⟨par, tree, htable.keeps (setType_keeps hxs t NULL) rfl⟩, h.short⟩

/-- What a part of the run leaves of the invariant. -/
structure Extends (b : BlockSize) (s s' : Image) (m : Ptr) (ns ns' ks ks' : List Ptr) (rem rem' room : Nat)
    (K S : Finset CStr) : Prop where
  holds  : Holds b s' m ns' ks' rem' (K ∪ S)
  room   : rem' + (room + b.need S K) = rem
  sub    : ∀ n ∈ ns, n ∈ ns'
  others : ∀ n ∈ ns, n ∉ ks → n ∉ ks'
  type   : ∀ n ∈ ns, (s'.node n).type = (s.node n).type

/-- Nothing is added at first. -/
theorem Extends.refl (h : Holds b s m ns ks rem K) : Extends b s s m ns ns ks ks rem rem 0 K ∅ where
  holds := by rwa [Finset.union_empty]
  room := by rw [b.need_empty, Nat.add_zero]
  sub _ hn := hn
  others _ _ hn := hn
  type _ _ := rfl

/-- What is added in two steps. -/
theorem Extends.trans {ns₁ ks₁ : List Ptr} {rem₁ room' : Nat}
    (h : Extends b s s₁ m ns ns₁ ks ks₁ rem rem₁ room K S)
    (h' : Extends b s₁ s' m ns₁ ns' ks₁ ks' rem₁ rem' room' (K ∪ S) T) :
    Extends b s s' m ns ns' ks ks' rem rem' (room + room') K (S ∪ T) where
  holds := by
    rw [← Finset.union_assoc]
    exact h'.holds
  room := by
    have h₁ := h.room
    have h₂ := h'.room
    rw [b.need_union]
    omega
  sub n hn := h'.sub n (h.sub n hn)
  others n hn hk := h'.others n (h.sub n hn) (h.others n hn hk)
  type n hn := (h'.type n (h.sub n hn)).trans (h.type n hn)

/-- Fields that the allocator and the table do not read may be stored. -/
theorem Extends.store (h : Extends b s s₁ m ns ns' ks ks' rem rem' room K S)
    (hstate : s'.toState = s₁.toState)
    (hstring : s'.string = s₁.string) (hroot : s'.strtbl = s₁.strtbl) :
    Extends b s s' m ns ns' ks ks' rem rem' room K S :=
  ⟨h.holds.store hstate hstring hroot, h.room, h.sub, h.others, fun n hn => by rw [hstate]; exact h.type n hn⟩

/-- So may the type of a new node that is no string. -/
theorem Extends.setType (h : Extends b s s₁ m ns ns' ks ks' rem rem' room K S) (hx : x ∈ ns') (hxs : x ∉ ks')
    (hnew : x ∉ ns) (t : FnodeType) : Extends b s (s₁.setType x t) m ns ns' ks ks' rem rem' room K S := by
  refine ⟨h.holds.setType hx hxs t, h.room, h.sub, h.others, ?_⟩
  intro n hn
  rw [setType_ne s₁ (ne_of_mem_of_not_mem hn hnew)]
  exact h.type n hn

/-- So may the next block of the disk. -/
theorem Extends.setLba (h : Extends b s s₁ m ns ns' ks ks' rem rem' room K S) (lba : Nat) :
    Extends b s { s₁ with nextLba := lba } m ns ns' ks ks' rem rem' room K S :=
  ⟨h.holds.setLba lba, h.room, h.sub, h.others, h.type⟩

-- ---------------------------------------------------------------------------
-- new_node
-- ---------------------------------------------------------------------------

/-- The same, with a new node that is not a string. -/
structure Adds (b : BlockSize) (s s' : Image) (m x : Ptr) (ns ns' ks ks' : List Ptr) (rem rem' room : Nat)
    (K S : Finset CStr) : Prop where
  step : Extends b s s' m ns ns' ks ks' rem rem' room K S
  mem  : x ∈ ns'
  new  : x ∉ ns
  free : x ∉ ks'

theorem Adds.store (h : Adds b s s₁ m x ns ns' ks ks' rem rem' room K S) (hstate : s'.toState = s₁.toState)
    (hstring : s'.string = s₁.string) (hroot : s'.strtbl = s₁.strtbl) :
    Adds b s s' m x ns ns' ks ks' rem rem' room K S :=
  ⟨h.step.store hstate hstring hroot, h.mem, h.new, h.free⟩

theorem Adds.setType (h : Adds b s s₁ m x ns ns' ks ks' rem rem' room K S) (t : FnodeType) :
    Adds b s (s₁.setType x t) m x ns ns' ks ks' rem rem' room K S :=
  ⟨h.step.setType h.mem h.free h.new t, h.mem, h.new, h.free⟩

/-- A step that adds a node, and then another one. -/
theorem Adds.extend {ns₁ ks₁ : List Ptr} {rem₁ room' : Nat}
    (h : Adds b s s₁ m x ns ns₁ ks ks₁ rem rem₁ room K S)
    (h' : Extends b s₁ s' m ns₁ ns' ks₁ ks' rem₁ rem' room' (K ∪ S) T) :
    Adds b s s' m x ns ns' ks ks' rem rem' (room + room') K (S ∪ T) :=
  ⟨h.step.trans h', h'.sub x h.mem, h.new, h'.others x h.mem h.free⟩

/-- `new_node` returns as long as there is room, and adds one node. -/
theorem newNode_adds (h : Holds b s m ns ks rem K) (H : Host) (size : Nat) (hle : b.node size ≤ rem) :
    ∃ s' n rem', Only (fun k => s.newNode H k size) (s', n) ∧
      Adds b s s' m n ns (ns ++ [n]) ks ks rem rem' (b.node size) K ∅ := by
  obtain ⟨f, hbump⟩ := h.bump
  obtain ⟨st, n, hrun, hallots⟩ := newNode_allots hbump H size hle
  obtain ⟨par, t, htable⟩ := h.table
  have hks : Keeps s { s with toState := st } ks NULL := hallots.keeps.mono h.given
  have hholds : Holds b { s with toState := st } m (ns ++ [n]) ks (rem - b.node size) (K ∪ ∅) := by
    rw [Finset.union_empty]
    exact ⟨hallots.bump, fun y hy => List.mem_append_left _ (h.given y hy),
      ⟨par, t, htable.keeps hks rfl⟩, h.short⟩
  have hroom : rem - b.node size + (b.node size + b.need ∅ K) = rem := by
    rw [b.need_empty, Nat.add_zero, Nat.sub_add_cancel hle]
  have hext : Extends b s { s with toState := st } m ns (ns ++ [n]) ks ks rem (rem - b.node size)
      (b.node size) K ∅ :=
    ⟨hholds, hroom, fun y hy => List.mem_append_left _ hy, fun _ _ hk => hk,
      fun y hy => (hallots.keeps.node y hy).1⟩
  exact ⟨{ s with toState := st }, n, rem - b.node size,
    hrun.toOnly fun k k' hle => below_imageNode hle size s, hext,
    List.mem_append_right _ (List.mem_singleton_self n), hallots.new,
    fun hn => hallots.new (h.given n hn)⟩

-- ---------------------------------------------------------------------------
-- get_string
-- ---------------------------------------------------------------------------

/-- What is left of the invariant, where `room` bytes are taken beside those for the strings. -/
def Extended (b : BlockSize) (s : Image) (m : Ptr) (ns ks : List Ptr) (rem room : Nat) (K S : Finset CStr)
    (s' : Image) : Prop :=
  ∃ ns' ks' rem', Extends b s s' m ns ns' ks ks' rem rem' room K S

/-- A string that the table does not have, where the descent left. -/
theorem newString_returns (h : Holds b s m ns ks rem K) (H : Host) (hstr : str ∉ K)
    (hroom : b.need {str} K ≤ rem)
    {par : Ptr → Ptr} {t : SearchTree Ptr} (htable : Table s ks par t K) {sl : Slot Ptr} {lp : Ptr}
    (hsl : sl = .root ∨ ∃ x ∈ t.toList, sl.owner = some x)
    (hshape : ∀ q, q ≠ NULL → q ∉ t.toList →
      ((({ s.links with parent := par } : Links Ptr).create NULL q lp).store q sl).Shape NULL
        (((({ s.links with parent := par } : Links Ptr).create NULL q lp).store q sl).load .root) NULL
        (t.place (fun n => hostKey (s.string n).value) (hostKey str) q)) :
    ReturnsIff (fun k => newString H k str sl s) (Short {str})
      fun r => Extended b s m ns ks rem 0 K {str} r.1 := by
  rw [short_singleton]
  rw [b.need_of_not_mem hstr] at hroom
  constructor
  · intro hshort
    obtain ⟨f, hbump⟩ := h.bump
    obtain ⟨st, n, hrun, hallots⟩ := newNode_allots hbump H (sizeofString + (str.chars.length + 1)) hroom
    let s₁ : Image := { s with toState := st }
    have hnks : n ∉ ks := fun hn => hallots.new (h.given n hn)
    have hks : Keeps s s₁ ks NULL := hallots.keeps.mono h.given
    have hcall : ∀ k, newString H k str sl s =
        (s.newNode H k (sizeofString + (str.chars.length + 1))).map
          fun r => (r.1.putString r.2 str sl, r.2) := by
      intro k
      rw [newString, if_neg (by omega), Option.map_eq_bind]
      rfl
    obtain ⟨hstate, -⟩ := storeString_rest
      ((s₁.setType n .STRING).setString n ⟨str.chars.length + 1, NULL, NULL, NULL, str⟩) n sl
    obtain ⟨f', hbump'⟩ := hallots.bump
    have hheld : Holds b (s₁.putString n str sl) m (ns ++ [n]) (ks ++ [n])
        (rem - b.node (sizeofString + (str.chars.length + 1))) (K ∪ {str}) := by
      refine ⟨⟨f', ?_⟩, ?_, ?_, short_union.mpr ⟨h.short, short_singleton.mpr hshort⟩⟩
      · rw [show (s₁.putString n str sl).toState = _ from hstate]
        exact hbump'.retype (by simp) .STRING
      · intro y hy
        rcases List.mem_append.mp hy with hy | hy
        · exact List.mem_append_left _ (h.given y hy)
        · exact List.mem_append_right _ hy
      · rw [Finset.union_comm, ← Finset.insert_eq]
        exact htable.stored hks rfl hstr hnks hallots.null hsl hshape
    have hkeeps : Keeps s (s₁.putString n str sl) ns NULL :=
      hallots.keeps.trans (store_keeps hallots.new _ sl)
    simp only [hcall]
    refine ⟨_, (hrun.toOnly fun k k' hle => below_imageNode hle _ s).map _, _, _, _, hheld, ?_,
      fun y hy => List.mem_append_left _ hy, fun y hy hyk hmem => ?_, fun y hy => (hkeeps.node y hy).1⟩
    · rw [b.need_of_not_mem hstr, Nat.zero_add, Nat.sub_add_cancel hroom]
    · rcases List.mem_append.mp hmem with hmem | hmem
      · exact hyk hmem
      · exact hallots.new (List.mem_singleton.mp hmem ▸ hy)
  · intro hlong k
    have hassert : ¬ str.chars.length + 1 < 2000 := by omega
    rw [newString, if_pos hassert]

/-- `get_string` returns exactly if the string is not too long. -/
theorem getString_returns (h : Holds b s m ns ks rem K) (H : Host) (o : Option CStr)
    (hroom : b.need o.toFinset K ≤ rem) :
    ReturnsIff (fun k => getString H k o s) (Short o.toFinset) fun r =>
      Extended b s m ns ks rem 0 K o.toFinset r.1 := by
  cases o with
  | none =>
    have hdone : Extended b s m ns ks rem 0 K ∅ s := ⟨ns, ks, rem, .refl h⟩
    exact (returnsIff_some (a := (s, NULL)) hdone).congr ⟨fun _ => trivial, fun _ => short_empty⟩
  | some str =>
    rw [Option.toFinset_some] at hroom ⊢
    obtain ⟨par, t, htable⟩ := h.table
    obtain ⟨sl, lp, hexits, hload, hown, hshape⟩ := htable.descends str
    have hdescend := (settles_of_exits hexits).toOnly fun k k' hle => below_iterate _ hle _
    refine hdescend.bind ?_
    by_cases hstr : str ∈ K
    · -- the table has the string
      obtain ⟨x, hx, hvalue⟩ := (htable.keys str).mp hstr
      have hfound := (SearchTree.lookup_eq_some htable.sorted).mpr ⟨hx, rfl⟩
      rw [hvalue] at hfound
      rw [hfound, Option.getD_some] at hload
      have hnull : x ≠ NULL := fun hz => h.null (hz ▸ h.given x (htable.mem x hx).1)
      have hsame : K ∪ {str} = K := Finset.union_eq_left.mpr (Finset.singleton_subset_iff.mpr hstr)
      have hdone : Extended b s m ns ks rem 0 K {str} s := by
        refine ⟨ns, ks, rem, ⟨by rwa [hsame], ?_, fun _ hn => hn, fun _ _ hn => hn, fun _ _ => rfl⟩⟩
        rw [b.need_of_mem hstr]
        rfl
      simp only [hload, ne_eq, hnull, not_false_eq_true, if_true]
      exact (returnsIff_some (a := (s, x)) hdone).congr
        ⟨fun _ => trivial, fun _ => short_singleton.mpr (h.short str hstr)⟩
    · rw [htable.lookup_none hstr, Option.getD_none] at hload
      simp only [hload, ne_eq, not_true, if_false]
      exact newString_returns h H hstr hroom htable hown hshape

-- ---------------------------------------------------------------------------
-- Entries
-- ---------------------------------------------------------------------------

/-- What is left of it with the new entry `r.2`, which is not a string. -/
def Added (b : BlockSize) (s : Image) (m : Ptr) (ns ks : List Ptr) (rem room : Nat) (K S : Finset CStr)
    (r : Image × Ptr) : Prop :=
  ∃ ns' ks' rem', Adds b s r.1 m r.2 ns ns' ks ks' rem rem' room K S

/-- An entry is linked to a directory, or to nothing. -/
theorem enter_store (hd : d ≠ NULL → (s.node d).type = .DIRECTORY) (x : Ptr) :
    ∃ s', s.enter x d = some s' ∧ s'.toState = s.toState ∧ s'.string = s.string ∧ s'.strtbl = s.strtbl := by
  rw [Image.enter]
  by_cases hnull : d = NULL
  · rw [if_neg (not_not_intro hnull)]
    exact ⟨_, rfl, rfl, rfl, rfl⟩
  · rw [if_pos hnull, if_neg (not_not_intro (hd hnull))]
    exact ⟨_, rfl, rfl, rfl, rfl⟩

/-- `new_common` in three steps: the node, its links, and its name. -/
theorem newCommon_eq (H : Host) (k : Nat) (name : Option CStr) (d : Ptr) (s : Image) :
    newCommon H k name d s = (s.newNode H k sizeofCommon).bind fun r => (r.1.enter r.2 d).bind fun s =>
      (getString H k name s).map fun q => (q.1.setCommon r.2 fun v => { v with name := q.2 }, r.2) := by
  simp only [newCommon, Option.map_eq_bind]
  rfl

/-- `new_common` returns exactly if the name is short, in a directory or for the root. -/
theorem newCommon_returns (h : Holds b s m ns ks rem K) (H : Host) (name : Option CStr)
    (hd : d ≠ NULL → d ∈ ns ∧ (s.node d).type = .DIRECTORY)
    (hroom : b.node sizeofCommon + b.need name.toFinset K ≤ rem) :
    ReturnsIff (fun k => newCommon H k name d s) (Short name.toFinset)
      (Added b s m ns ks rem (b.node sizeofCommon) K name.toFinset) := by
  obtain ⟨s₁, x, rem₁, hrun, hadds⟩ := newNode_adds h H sizeofCommon (by omega)
  have hroom₁ := hadds.step.room
  rw [b.need_empty] at hroom₁
  have hdir : d ≠ NULL → (s₁.node d).type = .DIRECTORY := fun hz =>
    (hadds.step.type d (hd hz).1).trans (hd hz).2
  obtain ⟨s₂, henter, hstate, hstring, hroot⟩ := enter_store hdir x
  have hadds₂ := hadds.store hstate hstring hroot
  have hget := getString_returns hadds₂.step.holds H name (by rw [Finset.union_empty]; omega)
  simp only [newCommon_eq]
  refine hrun.bind ?_
  simp only [henter, Option.bind_some]
  refine hget.map _ ?_
  rintro ⟨s₃, p⟩ ⟨ns', ks', rem', hext⟩
  have hall := hadds₂.extend hext
  rw [Finset.empty_union] at hall
  exact ⟨ns', ks', rem', hall.store rfl rfl rfl⟩

/-- What is left of it with the new entry `r.2` of type `t`. -/
def Begun (b : BlockSize) (s : Image) (m : Ptr) (ns ks : List Ptr) (rem room : Nat) (K S : Finset CStr)
    (t : FnodeType) (r : Image × Ptr) : Prop :=
  ∃ ns' ks' rem', Extends b s r.1 m ns ns' ks ks' rem rem' room K S ∧ r.2 ∈ ns' ∧ (r.1.node r.2).type = t

/-- `new_block` in two steps. -/
theorem newBlock_eq (H : Host) (k : Nat) (x : Ptr) (filename : Option CStr) (lba size : Nat) (s : Image) :
    newBlock H k x filename lba size s = (s.newNode H k sizeofBlock).map fun r =>
      (((r.1.setType r.2 .BLOCK).setBlock r.2 ⟨filename, NULL, lba, size⟩).setCommon x
        fun v => { v with data := r.2 },
        r.2) := by
  simp only [newBlock, Option.map_eq_bind]
  rfl

/-- `new_block` adds one node. -/
theorem newBlock_extends (h : Holds b s m ns ks rem K) (H : Host) (x : Ptr) (filename : Option CStr)
    (lba size : Nat)
    (hle : b.node sizeofBlock ≤ rem) :
    ∃ r, Only (fun k => newBlock H k x filename lba size s) r ∧
      Extended b s m ns ks rem (b.node sizeofBlock) K ∅ r.1 := by
  obtain ⟨s₁, bl, rem₁, hrun, hadds⟩ := newNode_adds h H sizeofBlock hle
  simp only [newBlock_eq]
  exact ⟨_, hrun.map _, _, _, rem₁, (hadds.setType .BLOCK).step.store rfl rfl rfl⟩

/-- An entry with a block node; what is stored last is at most the next free block of the disk. -/
theorem blockEntry_returns (h : Holds b s m ns ks rem K) (H : Host) (name : CStr)
    (hd : d ≠ NULL → d ∈ ns ∧ (s.node d).type = .DIRECTORY) (filename : Option CStr)
    (lba : Image → Nat) (size : Nat)
    (next : Image → Nat)
    (hroom : b.node sizeofCommon + b.node sizeofBlock + b.need {name} K ≤ rem) :
    ReturnsIff (fun k => (newCommon H k (some name) d s).bind fun r =>
        (newBlock H k r.2 filename (lba (r.1.setType r.2 .FILE)) size (r.1.setType r.2 .FILE)).map fun q =>
          (({ q.1 with nextLba := next q.1 } : Image), r.2))
      (Short {name}) (Begun b s m ns ks rem (b.node sizeofCommon + b.node sizeofBlock) K {name} .FILE) := by
  have hcommon := newCommon_returns h H (some name) hd (by rw [Option.toFinset_some]; omega)
  rw [Option.toFinset_some] at hcommon
  refine ReturnsIff.congr (c := Short {name} ∧ True) (hcommon.bind ?_) ⟨fun h => ⟨h, trivial⟩, fun h => h.1⟩
  rintro ⟨s₁, x⟩ ⟨ns₁, ks₁, rem₁, hadds⟩
  have hroom₁ := hadds.step.room
  have hfile := hadds.setType .FILE
  obtain ⟨r, hrun, ns₂, ks₂, rem₂, hext⟩ := newBlock_extends hfile.step.holds H x filename
    (lba (s₁.setType x .FILE)) size (by omega)
  refine ⟨fun _ => ⟨_, hrun.map _, ns₂, ks₂, rem₂, ?_, (hfile.extend hext).mem, ?_⟩,
    fun h => absurd trivial h⟩
  · have hall := hfile.step.trans hext
    rw [Finset.union_empty] at hall
    exact hall.setLba _
  · exact (hext.type x hfile.mem).trans (congrArg Node.type (setType_self s₁ x .FILE))

/-- `new_file` returns exactly if its name is not too long, for a file that can be read. -/
theorem newFile_returns (h : Holds b s m ns ks rem K) (name : CStr) {actual : CStr} {bytes : List UInt8}
    (hfile : H.file actual = some bytes) (hd : d ≠ NULL → d ∈ ns ∧ (s.node d).type = .DIRECTORY)
    (hroom : b.node sizeofCommon + b.node sizeofBlock + b.need {name} K ≤ rem) :
    ReturnsIff (fun k => newFile H k name actual d s) (Short {name})
      (Begun b s m ns ks rem (b.node sizeofCommon + b.node sizeofBlock) K {name} .FILE) := by
  have hall := blockEntry_returns h H name hd (some actual) (fun s => s.nextLba) bytes.length
    (fun s => (s.nextLba + align bytes.length s.blockSize / s.blockSize) % wordSize) hroom
  simp only [Option.map_eq_bind] at hall
  simp only [newFile, hfile]
  exact hall

/-- So does `new_virt`. -/
theorem newVirt_returns (h : Holds b s m ns ks rem K) (H : Host) (name : CStr) (lba size : Nat)
    (hd : d ≠ NULL → d ∈ ns ∧ (s.node d).type = .DIRECTORY)
    (hroom : b.node sizeofCommon + b.node sizeofBlock + b.need {name} K ≤ rem) :
    ReturnsIff (fun k => newVirt H k name lba size d s) (Short {name})
      (Begun b s m ns ks rem (b.node sizeofCommon + b.node sizeofBlock) K {name} .FILE) := by
  have hall := blockEntry_returns h H name hd none (fun s => lba * s.blockSize % wordSize) size
    (fun s => s.nextLba) hroom
  simp only [Option.map_eq_bind] at hall
  simp only [newVirt]
  exact hall

theorem newDir_returns (h : Holds b s m ns ks rem K) (H : Host) (name : Option CStr)
    (hd : d ≠ NULL → d ∈ ns ∧ (s.node d).type = .DIRECTORY)
    (hroom : b.node sizeofCommon + b.need name.toFinset K ≤ rem) :
    ReturnsIff (fun k => newDir H k name d s) (Short name.toFinset)
      (Begun b s m ns ks rem (b.node sizeofCommon) K name.toFinset .DIRECTORY) := by
  have hcall : ∀ k, newDir H k name d s = (newCommon H k name d s).map fun r =>
      ((r.1.setType r.2 .DIRECTORY).setCommon r.2 fun v => { v with data := NULL }, r.2) := by
    intro k
    simp only [newDir, Option.map_eq_bind]
    rfl
  simp only [hcall]
  refine (newCommon_returns h H name hd hroom).map _ ?_
  rintro ⟨s₁, x⟩ ⟨ns₁, ks₁, rem₁, hadds⟩
  exact ⟨ns₁, ks₁, rem₁, (hadds.setType .DIRECTORY).step.store rfl rfl rfl, hadds.mem,
    congrArg Node.type (setType_self s₁ x .DIRECTORY)⟩

/-- `new_indir` returns as well, with its name and its target. -/
theorem newIndir_returns (h : Holds b s m ns ks rem K) (H : Host) (name target : CStr)
    (hd : d ≠ NULL → d ∈ ns ∧ (s.node d).type = .DIRECTORY)
    (hroom : b.node sizeofCommon + b.need ({name} ∪ {target}) K ≤ rem) :
    ReturnsIff (fun k => newIndir H k name target d s) (Short ({name} ∪ {target}))
      (Begun b s m ns ks rem (b.node sizeofCommon) K ({name} ∪ {target}) .INDIRECT) := by
  have hcall : ∀ k, newIndir H k name target d s = (newCommon H k (some name) d s).bind fun r =>
      (getString H k (some target) (r.1.setType r.2 .INDIRECT)).map fun q =>
        (q.1.setCommon r.2 fun v => { v with data := q.2 }, r.2) := by
    intro k
    simp only [newIndir, Option.map_eq_bind]
    rfl
  rw [b.need_union] at hroom
  have hcommon := newCommon_returns h H (some name) hd (by rw [Option.toFinset_some]; omega)
  rw [Option.toFinset_some] at hcommon
  simp only [hcall]
  refine (hcommon.bind ?_).congr short_union
  rintro ⟨s₁, x⟩ ⟨ns₁, ks₁, rem₁, hadds⟩
  have hroom₁ := hadds.step.room
  have hindir := hadds.setType .INDIRECT
  have hget := getString_returns hindir.step.holds H (some target) (by rw [Option.toFinset_some]; omega)
  rw [Option.toFinset_some] at hget
  refine hget.map _ ?_
  rintro ⟨s₂, p⟩ ⟨ns₂, ks₂, rem₂, hext⟩
  refine ⟨ns₂, ks₂, rem₂, (hindir.step.trans hext).store rfl rfl rfl, (hindir.extend hext).mem, ?_⟩
  exact (hext.type x hindir.mem).trans (congrArg Node.type (setType_self s₁ x .INDIRECT))

/-- `confirm_common` returns exactly if the owner is short. -/
theorem confirmCommon_returns (h : Holds b s m ns ks rem K) (H : Host) (hx : x ≠ NULL) (fields : Fields)
    (hroom : b.need fields.owner.toFinset K ≤ rem) :
    ReturnsIff (fun k => confirmCommon H k fields x s) (Short fields.owner.toFinset)
      (Extended b s m ns ks rem 0 K fields.owner.toFinset) := by
  have hheld : Holds b (s.setPerm x fields) m ns ks rem K := h.store rfl rfl rfl
  cases howner : fields.owner with
  | none =>
    simp only [confirmCommon_none hx howner]
    have hdone : Extended b s m ns ks rem 0 K ∅ (s.setPerm x fields) :=
      ⟨ns, ks, rem, (Extends.refl h).store rfl rfl rfl⟩
    exact (returnsIff_some hdone).congr ⟨fun _ => trivial, fun _ => short_empty⟩
  | some owner =>
    simp only [confirmCommon_some hx howner]
    rw [howner] at hroom
    refine (getString_returns hheld H (some owner) hroom).map _ ?_
    rintro ⟨s₁, p⟩ ⟨ns₁, ks₁, rem₁, hext⟩
    have hperm : Extends b s (s.setPerm x fields) m ns ns ks ks rem rem 0 K ∅ :=
      (Extends.refl h).store rfl rfl rfl
    have hall := hperm.trans (Finset.union_empty K ▸ hext)
    rw [Finset.empty_union] at hall
    exact ⟨ns₁, ks₁, rem₁, hall.store rfl rfl rfl⟩

end Frosk.Builder
