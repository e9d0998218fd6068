import Mathlib.Tactic
import Frosk.Builder.Strings

/-!
# The image builder: directories

What `parse_directory` builds, while all nodes fit in the first metadata block. Each entry
goes in front of the others of its directory, so the entries of a directory are a chain in
the reverse of their order in the description.

* `Grown` — the chain of a directory is that of a description, down to the strings and the
  blocks of files, with permission and owner of each entry.
* `builds_of_fits`, `parseFsd_spec` — every description that fits is built, and takes
  exactly the room that its entries and its strings take.
-/

namespace Frosk.Builder

open Lib Fs

variable {H : Host} {s s' s₁ s₂ : Image} {m d x : Ptr} {ns ds es : List Ptr} {rem rem' : Nat}
  {K S T : Finset CStr}

-- ---------------------------------------------------------------------------
-- What stores leave of the invariant
-- ---------------------------------------------------------------------------

/-- A step that keeps the complete nodes, the table and the allocator. -/
theorem Laid.step (h : Laid H s m ns ds rem K) (hk : Keeps s s' ds d) (hlinks : s'.links = s.links)
    (hbump : ∃ f, Bump .default s'.toState m ns f rem) (hfirst : s'.firstMeta = s.firstMeta)
    (hlba : (s'.metaAt m).lba = (s.metaAt m).lba) : Laid H s' m ns ds rem K :=
  ⟨hbump, hfirst.trans h.first, hlba.trans h.lba, h.given, h.content.keeps hk hlinks⟩

theorem setCommon_self (s : Image) (n : Ptr) (f : Common → Common) :
    (s.setCommon n f).common n = f (s.common n) := Function.update_self ..

theorem setCommon_ne (s : Image) {n y : Ptr} (h : y ≠ n) (f : Common → Common) :
    (s.setCommon n f).common y = s.common y := Function.update_of_ne h ..

/-- A store in an entry that is not among `ns`. -/
theorem setCommon_keeps (hx : x ∉ ns) (f : Common → Common) (d : Ptr) :
    Keeps s (s.setCommon x f) ns d where
  node _ _ := ⟨rfl, rfl, rfl⟩
  common _ hy := ⟨_, setCommon_ne s (ne_of_mem_of_not_mem hy hx) f, fun _ => rfl⟩
  string _ _ := ⟨rfl, rfl⟩
  block _ _ := rfl
  lba := le_rfl
  root := rfl

/-- A store in the contents of `d`. -/
theorem setData_keeps (ns : List Ptr) (p : Ptr) :
    Keeps s (s.setCommon d fun v => { v with data := p }) ns d where
  node _ _ := ⟨rfl, rfl, rfl⟩
  common y hy := by
    by_cases h : y = d
    · subst h
      exact ⟨p, setCommon_self s y _, fun hne => absurd rfl hne⟩
    · exact ⟨_, setCommon_ne s h _, fun _ => rfl⟩
  string _ _ := ⟨rfl, rfl⟩
  block _ _ := rfl
  lba := le_rfl
  root := rfl

/-- The type of a node that was not given out before is nothing to the others. -/
theorem setType_keeps (hx : x ∉ ns) (t : FnodeType) (d : Ptr) : Keeps s (s.setType x t) ns d where
  node y hy := by
    rw [setType_ne s (ne_of_mem_of_not_mem hy hx) t]
    exact ⟨rfl, rfl, rfl⟩
  common _ _ := ⟨_, rfl, fun _ => rfl⟩
  string _ _ := ⟨rfl, rfl⟩
  block _ _ := rfl
  lba := le_rfl
  root := rfl

/-- The fields of a node that is not complete may be set. -/
theorem Laid.setCommon (h : Laid H s m ns ds rem K) (hx : x ∉ ds) (f : Common → Common) :
    Laid H (s.setCommon x f) m ns ds rem K :=
  h.step (setCommon_keeps hx f NULL) rfl h.bump rfl rfl

/-- So may its type. -/
theorem Laid.setType (h : Laid H s m ns ds rem K) (hn : x ∈ ns) (hx : x ∉ ds) (t : FnodeType) :
    Laid H (s.setType x t) m ns ds rem K := by
  obtain ⟨f, hbump⟩ := h.bump
  exact h.step (setType_keeps hx t NULL) rfl ⟨f, hbump.retype hn t⟩ rfl rfl

/-- One more node is complete, which is no string. -/
theorem Content.add (h : Content H s ds K) (hk : Keeps s s' ds d) (hlinks : s'.links = s.links)
    (hx : x ∉ ds) (hformed : Formed H s' x)
    (hapart : (s'.node x).type = .BLOCK → s.nextLba ≤ (s'.block x).lba) :
    Content H s' (ds ++ [x]) K := by
  obtain ⟨par, t, htable⟩ := h.table
  have htable' := htable.keeps hk hlinks
  exact h.snoc hk hx ⟨par, t, htable'.shape, htable'.sorted, fun n hn =>
    ⟨List.mem_append_left _ (htable'.mem n hn).1, (htable'.mem n hn).2⟩, htable'.keys⟩ hformed hapart

theorem mem_append_of_given (hgiven : ∀ n ∈ ds, n ∈ ns) (hx : x ∈ ns) : ∀ n ∈ ds ++ [x], n ∈ ns := by
  intro n hn
  rcases List.mem_append.mp hn with hn | hn
  · exact hgiven n hn
  · exact List.mem_singleton.mp hn ▸ hx

/-- An entry is complete once it has its type. -/
theorem Laid.complete (h : Laid H s m ns ds rem K) (hn : x ∈ ns) (hx : x ∉ ds)
    (hsize : (s.node x).size = 32) (htype : (s.node x).type = .FILE ∨
      (s.node x).type = .DIRECTORY ∨ (s.node x).type = .INDIRECT) :
    Laid H s m ns (ds ++ [x]) rem K := by
  refine ⟨h.bump, h.first, h.lba, mem_append_of_given h.given hn, ?_⟩
  refine h.content.add (.refl s ds NULL) rfl hx (.common hsize htype) ?_
  intro hblock
  rw [hblock] at htype
  simp at htype

theorem Laid.nodup (h : Laid H s m ns ds rem K) : ns.Nodup := by
  obtain ⟨f, hbump⟩ := h.bump
  exact (List.nodup_append.mp hbump.nodup).1

-- ---------------------------------------------------------------------------
-- new_common
-- ---------------------------------------------------------------------------

/-- What `new_common` leaves: the entry `x`, which is not complete yet, in front of what was
in `d`, with permission and owner of `d`. -/
structure Entered (H : Host) (s s' : Image) (m d x : Ptr) (ns ds es : List Ptr) (rem rem' : Nat)
    (K : Finset CStr) (name : CStr) : Prop where
  laid  : Laid H s' m (ns ++ x :: es) (ds ++ es) rem' (insert name K)
  room  : rem' + (32 + need {name} K) = rem
  keeps : Keeps s s' ns d
  size  : (s'.node x).size = 32
  perm  : (s'.common x).perm = (s.common d).perm
  owner : (s'.common x).owner = (s.common d).owner
  next  : (s'.common x).next = (s.common d).data
  data  : (s'.common d).data = x
  name  : IsString s' (ds ++ es) (s'.common x).name name
  lba   : s'.nextLba = s.nextLba

/-- `new_common` makes a node with the name, which comes first in its directory. -/
theorem newCommon_spec (h : Laid H s m ns ds rem K) (hd : d ∈ ds)
    (htype : (s.node d).type = .DIRECTORY) {name : CStr} (hshort : name.chars.length < 1999)
    (hroom : 32 + need {name} K ≤ rem) :
    ∃ s' x es rem', Settles (fun k => newCommon H k (some name) d s) (s', x) ∧
      Entered H s s' m d x ns ds es rem rem' K name := by
  obtain ⟨s₁, x, ⟨k₁, hk₁⟩, hgets⟩ := newNode_spec h sizeofCommon (show 32 ≤ rem by omega)
  have hxd : x ≠ d := fun hx => hgets.new (hx ▸ h.given d hd)
  have hdnull : d ≠ NULL := fun hz => h.given_ne_null (hz ▸ h.given d hd)
  have hxds : x ∉ ds := fun hx => hgets.new (h.given x hx)
  have hdir : (s₁.node d).type = .DIRECTORY := (hgets.keeps.node d (h.given d hd)).1.trans htype
  -- the entry goes in front of what is in the directory
  let p := s₁.common d
  let s₂ := (s₁.setCommon x fun v => { v with perm := p.perm, owner := p.owner, next := p.data }).setCommon
    d fun v => { v with data := x }
  have henter : s₁.enter x d = some s₂ := by
    rw [Image.enter, if_pos hdnull, if_neg (not_not_intro hdir)]
  have hkeeps₂ : Keeps s₁ s₂ ns d :=
    (setCommon_keeps hgets.new _ d).trans (setData_keeps ns x)
  have hlaid₂ : Laid H s₂ m (ns ++ [x]) ds (rem - 32) K :=
    hgets.laid.step (hkeeps₂.mono h.given) rfl hgets.laid.bump rfl rfl
  obtain ⟨s₃, nm, es, rem', ⟨k₃, hk₃⟩, hint⟩ := getString_spec hlaid₂ hshort (by omega)
  have hlist : ns ++ [x] ++ es = ns ++ x :: es := List.append_assoc ..
  have hxes : x ∉ ds ++ es := by
    have hnodup := hint.laid.nodup
    rw [hlist, List.nodup_append, List.nodup_cons] at hnodup
    intro hx
    rcases List.mem_append.mp hx with hx | hx
    · exact hxds hx
    · exact hnodup.2.1.1 hx
  let s₄ := s₃.setCommon x fun v => { v with name := nm }
  have hcommon : s₁.common = s.common := by rw [hgets.rest]
  have hx₂ : s₂.common x = { s₁.common x with
      perm := (s.common d).perm, owner := (s.common d).owner, next := (s.common d).data } := by
    rw [← hcommon]
    exact (setCommon_ne _ hxd _).trans (setCommon_self s₁ x _)
  have hx₄ : s₄.common x = { s₂.common x with name := nm } := by
    rw [← hint.common]
    exact setCommon_self s₃ x _
  refine ⟨s₄, x, es, rem', ⟨max k₁ k₃, ?_⟩, ?_⟩
  · intro k hk
    have hnode : s.newNode H k sizeofCommon = some (s₁, x) := hk₁ k (le_of_max_le_left hk)
    have hname : getString H k (some name) s₂ = some (s₃, nm) := hk₃ k (le_of_max_le_right hk)
    simp only [newCommon]
    rw [hnode]
    simp only [Option.bind_eq_bind, Option.bind_some, henter, hname]
    rfl
  · refine ⟨?_, ?_, ?_, ?_, ?_, ?_, ?_, ?_, ?_, ?_⟩
    · rw [← hlist]
      exact hint.laid.setCommon hxes _
    · have hrest := hint.room
      omega
    · have hstring : Keeps s₂ s₃ ns NULL := hint.keeps.mono fun n hn => List.mem_append_left _ hn
      exact ((hgets.keeps.but h.given_ne_null d).trans hkeeps₂).trans
        ((hstring.but h.given_ne_null d).trans (setCommon_keeps hgets.new _ d))
    · exact (hint.keeps.node x (by simp)).2.1.trans hgets.size
    · rw [hx₄, hx₂]
    · rw [hx₄, hx₂]
    · rw [hx₄, hx₂]
    · rw [show s₄.common d = s₃.common d from setCommon_ne s₃ hxd.symm _, hint.common]
      exact congrArg Common.data (setCommon_self _ d _)
    · rw [hx₄]
      exact ⟨hint.string.mem, hint.string.type, hint.string.value⟩
    · exact hint.lba.trans hgets.lba

-- ---------------------------------------------------------------------------
-- confirm_common
-- ---------------------------------------------------------------------------

theorem need_empty (K : Finset CStr) : need ∅ K = 0 := by
  rw [need, Finset.empty_sdiff, Finset.sum_empty]

/-- The permission that `confirm_common` leaves in an entry that had `perm`. -/
def Fields.permOver (fields : Fields) (perm : Nat) : Nat := (fields.perm.map parsePerm).getD perm

/-- What `confirm_common` leaves, for the entry `x` that is not complete. -/
structure Confirmed (H : Host) (s s' : Image) (m x : Ptr) (ns ds es : List Ptr) (rem rem' : Nat)
    (K : Finset CStr) (fields : Fields) : Prop where
  laid   : Laid H s' m (ns ++ es) (ds ++ es) rem' (K ∪ fields.owner.toFinset)
  room   : rem' + need fields.owner.toFinset K = rem
  keeps  : ∀ l, (∀ n ∈ l, n ∈ ns) → x ∉ l → Keeps s s' l NULL
  node   : (s'.node x).type = (s.node x).type ∧ (s'.node x).size = (s.node x).size
  common : s'.common x = { s.common x with
    perm := fields.permOver (s.common x).perm, owner := (s'.common x).owner }
  same   : fields.owner = none → (s'.common x).owner = (s.common x).owner
  owner  : ∀ str ∈ fields.owner, IsString s' (ds ++ es) (s'.common x).owner str
  lba    : s'.nextLba = s.nextLba

/-- The permission, which comes first. -/
def Image.setPerm (s : Image) (x : Ptr) (fields : Fields) : Image :=
  s.setCommon x fun v => { v with perm := fields.permOver v.perm }

theorem setPerm_none (s : Image) (x : Ptr) {fields : Fields} (h : fields.perm = none) :
    s.setPerm x fields = s := by
  have hcommon : Function.update s.common x (s.common x) = s.common := Function.update_eq_self ..
  have hperm : ∀ perm, fields.permOver perm = perm := fun perm => by rw [Fields.permOver, h]; rfl
  rw [Image.setPerm, Image.setCommon, hperm, hcommon]

theorem setPerm_some (s : Image) (x : Ptr) {fields : Fields} {perm : CStr} (h : fields.perm = some perm) :
    s.setPerm x fields = s.setCommon x fun v => { v with perm := parsePerm perm } := by
  have hperm : ∀ v, fields.permOver v = parsePerm perm := fun v => by rw [Fields.permOver, h]; rfl
  simp only [Image.setPerm, hperm]

/-- Without an owner, `confirm_common` sets the permissions only. -/
theorem confirmCommon_none (hx : x ≠ NULL) {fields : Fields} (howner : fields.owner = none) (k : Nat) :
    confirmCommon H k fields x s = some (s.setPerm x fields) := by
  unfold confirmCommon
  rw [howner]
  cases hperm : fields.perm with
  | none => rw [setPerm_none s x hperm]; rfl
  | some perm =>
    rw [setPerm_some s x hperm]
    simp only [if_neg hx, Option.bind_eq_bind, Option.bind_some]

/-- With an owner it looks up the string of it. -/
theorem confirmCommon_some (hx : x ≠ NULL) {fields : Fields} {owner : CStr}
    (howner : fields.owner = some owner) (k : Nat) :
    confirmCommon H k fields x s = (getString H k (some owner) (s.setPerm x fields)).map fun r =>
      r.1.setCommon x fun v => { v with owner := r.2 } := by
  unfold confirmCommon
  rw [howner]
  cases hperm : fields.perm with
  | none =>
    rw [setPerm_none s x hperm]
    simp only [if_neg hx, Option.bind_eq_bind, Option.bind_some, Option.map_eq_bind]
    rfl
  | some perm =>
    rw [setPerm_some s x hperm]
    simp only [if_neg hx, Option.bind_eq_bind, Option.bind_some, Option.map_eq_bind]
    rfl

/-- `confirm_common` returns, and the entry has the permissions and the owner of its fields. -/
theorem confirmCommon_spec (h : Laid H s m ns ds rem K) (hn : x ∈ ns) (hx : x ∉ ds) (fields : Fields)
    (hshort : ∀ str ∈ fields.owner, str.chars.length < 1999)
    (hroom : need fields.owner.toFinset K ≤ rem) :
    ∃ s' es rem', Settles (fun k => confirmCommon H k fields x s) s' ∧
      Confirmed H s s' m x ns ds es rem rem' K fields := by
  have hnull : x ≠ NULL := ne_of_mem_of_not_mem hn h.given_ne_null
  let s₁ := s.setPerm x fields
  have hlaid₁ : Laid H s₁ m ns ds rem K := h.setCommon hx _
  have hcommon₁ : s₁.common x = { s.common x with perm := fields.permOver (s.common x).perm } :=
    setCommon_self s x _
  have hkeeps₁ : ∀ l, x ∉ l → Keeps s s₁ l NULL := fun l hl => setCommon_keeps hl _ NULL
  cases howner : fields.owner with
  | none =>
    refine ⟨s₁, [], rem, settles_of_eq (confirmCommon_none hnull howner), ?_⟩
    refine ⟨?_, ?_, fun l _ hl => hkeeps₁ l hl, ⟨rfl, rfl⟩, ?_, fun _ => ?_, ?_, rfl⟩
    · rw [howner, Option.toFinset_none, Finset.union_empty, List.append_nil, List.append_nil]
      exact hlaid₁
    · rw [howner, Option.toFinset_none, need_empty, Nat.add_zero]
    · rw [hcommon₁]
    · rw [hcommon₁]
    · rw [howner]
      exact nofun
  | some owner =>
    rw [howner, Option.toFinset_some] at hroom
    obtain ⟨s₂, p, es, rem', ⟨k₂, hk₂⟩, hint⟩ := getString_spec hlaid₁ (hshort owner howner) hroom
    have hxes : x ∉ ds ++ es := by
      intro hmem
      rcases List.mem_append.mp hmem with hmem | hmem
      · exact hx hmem
      · exact (List.nodup_append.mp hint.laid.nodup).2.2 x hn x hmem rfl
    have hcommon₂ : (s₂.setCommon x fun v => { v with owner := p }).common x =
        { s₁.common x with owner := p } := by
      rw [← hint.common]
      exact setCommon_self s₂ x _
    refine ⟨s₂.setCommon x fun v => { v with owner := p }, es, rem', ⟨k₂, fun k hk => ?_⟩, ?_⟩
    · have hstring : getString H k (some owner) (s.setPerm x fields) = some (s₂, p) := hk₂ k hk
      show confirmCommon H k fields x s = _
      rw [confirmCommon_some hnull howner, hstring]
      rfl
    · refine ⟨?_, ?_, ?_, ?_, ?_, ?_, ?_, hint.lba⟩
      · rw [howner, Option.toFinset_some, Finset.union_comm, ← Finset.insert_eq]
        exact hint.laid.setCommon hxes _
      · rw [howner, Option.toFinset_some]
        exact hint.room
      · intro l hl hxl
        exact (hkeeps₁ l hxl).trans ((hint.keeps.mono hl).trans (setCommon_keeps hxl _ NULL))
      · exact ⟨(hint.keeps.node x hn).1, (hint.keeps.node x hn).2.1⟩
      · rw [hcommon₂, hcommon₁]
      · rw [howner]
        exact nofun
      · intro str hstr
        rw [howner] at hstr
        obtain rfl := Option.some.inj hstr
        rw [hcommon₂]
        exact ⟨hint.string.mem, hint.string.type, hint.string.value⟩

-- ---------------------------------------------------------------------------
-- One entry
-- ---------------------------------------------------------------------------

/-- Permission and owner of an entry. -/
structure Attr where
  perm  : Nat
  owner : Option CStr

/-- What an entry has that does not say more, in a directory with `a`. -/
def Attr.over (a : Attr) (fields : Fields) : Attr :=
  ⟨fields.permOver a.perm, fields.owner.or a.owner⟩

/-- The node `x` has this permission and this owner. -/
structure Has (s : Image) (ds : List Ptr) (x : Ptr) (a : Attr) : Prop where
  perm  : (s.common x).perm = a.perm
  none  : a.owner = none → (s.common x).owner = NULL
  owner : ∀ str ∈ a.owner, IsString s ds (s.common x).owner str

/-- The entry `x`, but for its data and the link to the next. -/
structure Shaped (s : Image) (ds : List Ptr) (x : Ptr) (t : FnodeType) (fields : Fields) (a : Attr) :
    Prop where
  mem  : x ∈ ds
  type : (s.node x).type = t
  name : IsString s ds (s.common x).name fields.name
  has  : Has s ds x (a.over fields)

/-- What a part of the run leaves: the nodes `es` are new and complete, and took `room` bytes
beside those of new strings. -/
structure Grows (H : Host) (s s' : Image) (m d : Ptr) (ns ds es ds' : List Ptr)
    (rem rem' room blocks : Nat) (K S : Finset CStr) : Prop where
  laid  : Laid H s' m (ns ++ es) (ds ++ ds') rem' (K ∪ S)
  room  : rem' + (room + need S K) = rem
  keeps : Keeps s s' ns d
  done  : ∀ n ∈ es, n ∈ ds'
  lba   : s'.nextLba = s.nextLba + blocks

/-- Where a directory outside of `ns` changes, none in it does. -/
theorem Keeps.outside {d' : Ptr} (h : Keeps s s' ns d') (hd' : d' ∉ ns) (d : Ptr) : Keeps s s' ns d where
  node := h.node
  common n hn := by
    obtain ⟨data, hcommon, hdata⟩ := h.common n hn
    exact ⟨data, hcommon, fun _ => hdata (ne_of_mem_of_not_mem hn hd')⟩
  string := h.string
  block := h.block
  lba := h.lba
  root := h.root

/-- Nothing is built at first. -/
theorem Grows.refl (h : Laid H s m ns ds rem K) (d : Ptr) :
    Grows H s s m d ns ds [] [] rem rem 0 0 K ∅ where
  laid := by rwa [List.append_nil, List.append_nil, Finset.union_empty]
  room := by rw [need_empty, Nat.zero_add, Nat.add_zero]
  keeps := .refl s ns d
  done := nofun
  lba := rfl

/-- What is built in two parts, one after the other. -/
theorem Grows.append {d' : Ptr} {es₂ ds' ds₂ : List Ptr} {rem₂ room room₂ blocks blocks₂ : Nat}
    (h : Grows H s s₁ m d ns ds es ds' rem rem' room blocks K S)
    (h' : Grows H s₁ s₂ m d' (ns ++ es) (ds ++ ds') es₂ ds₂ rem' rem₂ room₂ blocks₂ (K ∪ S) T)
    (hk : Keeps s₁ s₂ ns d) :
    Grows H s s₂ m d ns ds (es ++ es₂) (ds' ++ ds₂) rem rem₂ (room + room₂) (blocks + blocks₂) K
      (S ∪ T) where
  laid := by
    rw [← List.append_assoc, ← List.append_assoc, ← Finset.union_assoc]
    exact h'.laid
  room := by
    have h₁ := h.room
    have h₂ := h'.room
    rw [need_union]
    omega
  keeps := h.keeps.trans hk
  done n hn := by
    rcases List.mem_append.mp hn with hn | hn
    · exact List.mem_append_left _ (h.done n hn)
    · exact List.mem_append_right _ (h'.done n hn)
  lba := by rw [h'.lba, h.lba, Nat.add_assoc]

/-- The entry `x` before `confirm_common`: it is new and has its type, and all other new nodes
are complete. -/
structure Pending (H : Host) (s s' : Image) (m d x : Ptr) (ns ds es ds' : List Ptr)
    (rem rem' room blocks : Nat) (K S : Finset CStr) (t : FnodeType) (name : CStr) : Prop where
  laid  : Laid H s' m (ns ++ es) (ds ++ ds') rem' (K ∪ S)
  room  : rem' + (room + need S K) = rem
  keeps : Keeps s s' ns d
  mem   : x ∈ es
  new   : x ∉ ds ++ ds'
  done  : ∀ n ∈ es, n ≠ x → n ∈ ds'
  lba   : s'.nextLba = s.nextLba + blocks
  type  : (s'.node x).type = t
  size  : (s'.node x).size = 32
  perm  : (s'.common x).perm = (s.common d).perm
  owner : (s'.common x).owner = (s.common d).owner
  next  : (s'.common x).next = (s.common d).data
  data  : (s'.common d).data = x
  name  : IsString s' (ds ++ ds') (s'.common x).name name

/-- A string that was complete is still one. -/
theorem IsString.keeps {str : CStr} {p : Ptr} {ds' : List Ptr} (h : IsString s ds p str)
    (hk : Keeps s s' ds d) (hsub : ∀ n ∈ ds, n ∈ ds') : IsString s' ds' p str :=
  ⟨hsub p h.mem, (hk.node p h.mem).1.trans h.type, (hk.string p h.mem).1.trans h.value⟩

/-- `confirm_common` completes the entry. -/
theorem confirm_spec {ds' : List Ptr} {room blocks : Nat} {t : FnodeType} {fields : Fields} {a : Attr}
    (h : Pending H s s₁ m d x ns ds es ds' rem rem' room blocks K S t fields.name)
    (ht : t = .FILE ∨ t = .DIRECTORY ∨ t = .INDIRECT) (hd : d ∈ ds) (hns : ∀ n ∈ ds, n ∈ ns)
    (ha : Has s ds d a)
    (hshort : ∀ str ∈ fields.owner, str.chars.length < 1999)
    (hroom : need fields.owner.toFinset (K ∪ S) ≤ rem') :
    ∃ s' es₂ rem₂, Settles (fun k => confirmCommon H k fields x s₁) s' ∧
      Grows H s s' m d ns ds (es ++ es₂) (ds' ++ (es₂ ++ [x])) rem rem₂ room blocks K
        (S ∪ fields.owner.toFinset) ∧
      Shaped s' (ds ++ (ds' ++ (es₂ ++ [x]))) x t fields a ∧
      (s'.common x).next = (s.common d).data ∧ (s'.common d).data = x ∧
      (s'.common x).data = (s₁.common x).data ∧
      Keeps s₁ s' (ds ++ ds') NULL := by
  obtain ⟨s', es₂, rem₂, hrun, hconf⟩ := confirmCommon_spec h.laid (List.mem_append_right _ h.mem)
    h.new fields hshort hroom
  have hkeeps : Keeps s₁ s' (ds ++ ds') NULL := hconf.keeps _ h.laid.given h.new
  have hxns : x ∉ ns := fun hx => (List.nodup_append.mp h.laid.nodup).2.2 x hx x h.mem rfl
  have hall : Keeps s s' ns d :=
    h.keeps.trans ((hconf.keeps ns (fun n hn => List.mem_append_left _ hn) hxns).but
      (fun hz => h.laid.given_ne_null (List.mem_append_left _ hz)) d)
  have hxnew : x ∉ ds ++ ds' ++ es₂ := by
    intro hx
    rcases List.mem_append.mp hx with hx | hx
    · exact h.new hx
    · exact (List.nodup_append.mp hconf.laid.nodup).2.2 x (List.mem_append_right _ h.mem) x hx rfl
  have hlist : ds ++ ds' ++ es₂ ++ [x] = ds ++ (ds' ++ (es₂ ++ [x])) := by
    rw [List.append_assoc, List.append_assoc]
  have hsub : ∀ n ∈ ds ++ ds', n ∈ ds ++ (ds' ++ (es₂ ++ [x])) := by
    intro n hn
    rw [← hlist, List.append_assoc]
    exact List.mem_append_left _ hn
  have htype : (s'.node x).type = t := hconf.node.1.trans h.type
  refine ⟨s', es₂, rem₂, hrun, ?_, ?_, ?_, ?_, ?_, hkeeps⟩
  · refine ⟨?_, ?_, hall, ?_, by rw [hconf.lba, h.lba]⟩
    · have hlaid := hconf.laid.complete (List.mem_append_left _ (List.mem_append_right _ h.mem)) hxnew
        (hconf.node.2.trans h.size) (by rw [htype]; exact ht)
      rwa [hlist, List.append_assoc, Finset.union_assoc] at hlaid
    · have h₁ := h.room
      have h₂ := hconf.room
      rw [need_union]
      omega
    · intro n hn
      simp only [List.mem_append, List.mem_singleton] at hn ⊢
      by_cases hx : n = x
      · exact .inr (.inr hx)
      · exact hn.imp (fun hn => h.done n hn hx) .inl
  · refine ⟨by simp, htype, ?_, ?_, ?_, ?_⟩
    · rw [hconf.common]
      exact h.name.keeps hkeeps hsub
    · rw [hconf.common, h.perm, ha.perm]
      rfl
    · intro hnone
      obtain ⟨hfields, howner⟩ := Option.or_eq_none_iff.mp hnone
      rw [hconf.same hfields, h.owner]
      exact ha.none howner
    · intro str hstr
      cases howner : fields.owner with
      | none =>
        have hstr' : str ∈ a.owner := by
          have hor : fields.owner.or a.owner = some str := hstr
          rwa [howner, Option.none_or] at hor
        rw [hconf.same howner, h.owner]
        exact (ha.owner str hstr').keeps (hall.mono hns) fun n hn => List.mem_append_left _ hn
      | some str' =>
        have hor : fields.owner.or a.owner = some str := hstr
        rw [howner, Option.some_or] at hor
        have howned := hconf.owner str' howner
        obtain rfl := Option.some.inj hor
        refine ⟨?_, howned.type, howned.value⟩
        rw [← hlist]
        exact List.mem_append_left _ howned.mem
  · rw [hconf.common]
    exact h.next
  · obtain ⟨data, hcommon, hdata⟩ := hkeeps.common d (List.mem_append_left _ hd)
    have hdnull : d ≠ NULL :=
      ne_of_mem_of_not_mem (List.mem_append_left _ (hns d hd)) h.laid.given_ne_null
    rw [hcommon, hdata hdnull]
    exact h.data
  · rw [hconf.common]

-- ---------------------------------------------------------------------------
-- new_dir, new_indir and new_file
-- ---------------------------------------------------------------------------

section Kinds

variable {ds' : List Ptr} {room blocks : Nat} {t : FnodeType} {name : CStr}

/-- The entry, once it has its type. -/
theorem Entered.pending (h : Entered H s s' m d x ns ds es rem rem' K name)
    (hns : ∀ n ∈ ds, n ∈ ns) (t : FnodeType) :
    Pending H s (s'.setType x t) m d x ns ds (x :: es) es rem rem' 32 0 K {name} t name := by
  have hnodup := h.laid.nodup
  rw [List.nodup_append, List.nodup_cons] at hnodup
  have hxns : x ∉ ns := fun hx => hnodup.2.2 x hx x List.mem_cons_self rfl
  have hx : x ∉ ds ++ es := by
    intro hx
    rcases List.mem_append.mp hx with hx | hx
    · exact hxns (hns x hx)
    · exact hnodup.2.1.1 hx
  have hset := setType_self s' x t
  refine ⟨?_, h.room, h.keeps.trans (setType_keeps hxns t d), List.mem_cons_self, hx, ?_, h.lba, ?_, ?_,
    h.perm, h.owner, h.next, h.data, ?_⟩
  · rw [Finset.union_comm, ← Finset.insert_eq]
    exact h.laid.setType (by simp) hx t
  · intro n hn hne
    exact (List.mem_cons.mp hn).resolve_left hne
  · rw [hset]
  · rw [hset]
    exact h.size
  · exact h.name.keeps (setType_keeps hx t d) fun _ hn => hn

/-- The node of an entry was not given out before. -/
theorem Pending.not_mem (h : Pending H s s' m d x ns ds es ds' rem rem' room blocks K S t name) :
    x ∉ ns := fun hx => (List.nodup_append.mp h.laid.nodup).2.2 x hx x h.mem rfl

/-- The data of the entry, which is stored last. -/
theorem Pending.setData (h : Pending H s s' m d x ns ds es ds' rem rem' room blocks K S t name)
    (hdns : d ∈ ns) (p : Ptr) :
    Pending H s (s'.setCommon x fun v => { v with data := p }) m d x ns ds es ds' rem rem' room blocks
      K S t name := by
  have hdx : d ≠ x := ne_of_mem_of_not_mem hdns h.not_mem
  have hself := setCommon_self s' x fun v => { v with data := p }
  refine ⟨h.laid.setCommon h.new _, h.room, h.keeps.trans (setCommon_keeps h.not_mem _ d), h.mem, h.new,
    h.done, h.lba, h.type, h.size, ?_, ?_, ?_, ?_, ?_⟩
  · rw [hself]
    exact h.perm
  · rw [hself]
    exact h.owner
  · rw [hself]
    exact h.next
  · rw [setCommon_ne s' hdx]
    exact h.data
  · rw [hself]
    exact h.name.keeps (setCommon_keeps h.new _ NULL) fun _ hn => hn

/-- One more string, while the entry is not complete. -/
theorem Pending.intern {es₂ : List Ptr} {rem₂ : Nat} {str : CStr} {p : Ptr}
    (h : Pending H s s₁ m d x ns ds es ds' rem rem' room blocks K S t name)
    (h' : Interned H s₁ s₂ m (ns ++ es) (ds ++ ds') es₂ rem' rem₂ (K ∪ S) str p) :
    Pending H s s₂ m d x ns ds (es ++ es₂) (ds' ++ es₂) rem rem₂ room blocks K (S ∪ {str}) t name := by
  have hx : x ∈ ns ++ es := List.mem_append_right _ h.mem
  have hnull : NULL ∉ ns := fun hz => h.laid.given_ne_null (List.mem_append_left _ hz)
  have hkeeps : Keeps s₁ s₂ ns d := (h'.keeps.mono fun n hn => List.mem_append_left _ hn).but hnull d
  refine ⟨?_, ?_, h.keeps.trans hkeeps, List.mem_append_left _ h.mem, ?_, fun n hn hne => ?_, ?_, ?_, ?_,
    ?_, ?_, ?_, ?_, ?_⟩
  · have hlaid := h'.laid
    rwa [List.append_assoc, List.append_assoc, Finset.insert_eq, Finset.union_comm,
      Finset.union_assoc] at hlaid
  · have h₁ := h.room
    have h₂ := h'.room
    rw [need_union]
    omega
  · intro hmem
    rw [← List.append_assoc] at hmem
    rcases List.mem_append.mp hmem with hmem | hmem
    · exact h.new hmem
    · exact (List.nodup_append.mp h'.laid.nodup).2.2 x hx x hmem rfl
  · rcases List.mem_append.mp hn with hn | hn
    · exact List.mem_append_left _ (h.done n hn hne)
    · exact List.mem_append_right _ hn
  · rw [h'.lba, h.lba]
  · exact (h'.keeps.node x hx).1.trans h.type
  · exact (h'.keeps.node x hx).2.1.trans h.size
  · rw [h'.common]
    exact h.perm
  · rw [h'.common]
    exact h.owner
  · rw [h'.common]
    exact h.next
  · rw [h'.common]
    exact h.data
  · rw [h'.common]
    refine h.name.keeps (h'.keeps.mono h.laid.given) ?_
    intro n hn
    rw [← List.append_assoc]
    exact List.mem_append_left _ hn

/-- `new_dir` makes an empty directory. -/
theorem newDir_spec (h : Laid H s m ns ds rem K) (hd : d ∈ ds) (htype : (s.node d).type = .DIRECTORY)
    (hshort : name.chars.length < 1999) (hroom : 32 + need {name} K ≤ rem) :
    ∃ s' x es rem', Settles (fun k => newDir H k (some name) d s) (s', x) ∧
      Pending H s s' m d x ns ds (x :: es) es rem rem' 32 0 K {name} .DIRECTORY name ∧
      (s'.common x).data = NULL := by
  obtain ⟨s₁, x, es, rem', ⟨k₁, hk₁⟩, hent⟩ := newCommon_spec h hd htype hshort hroom
  refine ⟨_, x, es, rem', ⟨k₁, fun k hk => ?_⟩,
    (hent.pending h.given .DIRECTORY).setData (h.given d hd) NULL,
    congrArg Common.data (setCommon_self _ x _)⟩
  have hcommon : newCommon H k (some name) d s = some (s₁, x) := hk₁ k hk
  simp only [newDir]
  rw [hcommon]
  rfl

/-- `new_indir` makes an entry that leads to the string of its target. -/
theorem newIndir_spec (h : Laid H s m ns ds rem K) (hd : d ∈ ds) (htype : (s.node d).type = .DIRECTORY)
    (hshort : name.chars.length < 1999) {target : CStr} (htarget : target.chars.length < 1999)
    (hroom : 32 + need ({name} ∪ {target}) K ≤ rem) :
    ∃ s' x es ds' rem', Settles (fun k => newIndir H k name target d s) (s', x) ∧
      Pending H s s' m d x ns ds es ds' rem rem' 32 0 K ({name} ∪ {target}) .INDIRECT name ∧
      IsString s' (ds ++ ds') (s'.common x).data target := by
  rw [need_union] at hroom
  obtain ⟨s₁, x, es, rem', ⟨k₁, hk₁⟩, hent⟩ := newCommon_spec h hd htype hshort (by omega)
  have hpend := hent.pending h.given .INDIRECT
  have hleft := hpend.room
  obtain ⟨s₂, p, es₂, rem₂, ⟨k₂, hk₂⟩, hint⟩ := getString_spec hpend.laid htarget (by omega)
  have hpend₂ := hpend.intern hint
  have hself := setCommon_self s₂ x fun v => { v with data := p }
  refine ⟨_, x, _, _, rem₂, ⟨max k₁ k₂, ?_⟩, hpend₂.setData (h.given d hd) p, ?_⟩
  · intro k hk
    have hcommon : newCommon H k (some name) d s = some (s₁, x) := hk₁ k (le_of_max_le_left hk)
    have hstring : getString H k (some target) (s₁.setType x .INDIRECT) = some (s₂, p) :=
      hk₂ k (le_of_max_le_right hk)
    simp only [newIndir]
    rw [hcommon]
    simp only [Option.bind_eq_bind, Option.bind_some, hstring]
  · rw [hself]
    have hstr := hint.string
    rw [List.append_assoc] at hstr
    exact hstr.keeps (setCommon_keeps hpend₂.new _ NULL) fun _ hn => hn

/-- What `new_file` stores for the contents: the block node `bl`, and the blocks behind all others. -/
def Image.addBlock (s : Image) (x bl : Ptr) (actual : CStr) (size blocks : Nat) : Image :=
  { ((s.setType bl .BLOCK).setBlock bl ⟨some actual, NULL, s.nextLba, size⟩).setCommon x
      (fun v => { v with data := bl }) with nextLba := s.nextLba + blocks }

/-- The block of a file is nothing to the nodes from before. -/
theorem addBlock_keeps {bl : Ptr} (hx : x ∉ ns) (hbl : bl ∉ ns) (actual : CStr) (size blocks : Nat)
    (d : Ptr) : Keeps s (s.addBlock x bl actual size blocks) ns d where
  node y hy := by
    have hnode : (s.addBlock x bl actual size blocks).node y = s.node y :=
      setType_ne s (ne_of_mem_of_not_mem hy hbl) .BLOCK
    rw [hnode]
    exact ⟨rfl, rfl, rfl⟩
  common y hy := ⟨(s.common y).data, Function.update_of_ne (ne_of_mem_of_not_mem hy hx) .., fun _ => rfl⟩
  string _ _ := ⟨rfl, rfl⟩
  block _ hy := Function.update_of_ne (ne_of_mem_of_not_mem hy hbl) ..
  lba := Nat.le_add_right ..
  root := rfl

theorem Bump.setLba {b : BlockSize} {s : State} {f : Option Ptr} (h : Bump b s m ns f rem) (lba : Nat) :
    Bump b { s with nextLba := lba } m ns f rem :=
  ⟨h.size, h.metas, h.shift, inBlock_congr h.block rfl rfl rfl fun _ => ⟨rfl, rfl, rfl, rfl, rfl⟩,
    h.nodup, h.ours, h.head, h.whole, h.rest, h.full, h.low⟩

/-- The block of a file, while the entry is not complete. -/
theorem Pending.addBlock {bl : Ptr} {actual : CStr} {bytes : List UInt8}
    (h : Pending H s s₁ m d x ns ds es ds' rem rem' room blocks K S t name) (hdns : d ∈ ns)
    (h' : Gets H s₁ s₂ m (ns ++ es) (ds ++ ds') rem' 32 (K ∪ S) bl) (hrem : 32 ≤ rem')
    (hfile : H.file actual = some bytes) (hlow : 3 ≤ s₁.nextLba) :
    Pending H s (s₂.addBlock x bl actual bytes.length (blocksFor bytes.length)) m d x ns ds (es ++ [bl])
      (ds' ++ [bl]) rem (rem' - 32) (room + 32) (blocks + blocksFor bytes.length) K S t name := by
  let s₃ := s₂.addBlock x bl actual bytes.length (blocksFor bytes.length)
  have hx : x ∈ ns ++ es := List.mem_append_right _ h.mem
  have hxbl : x ≠ bl := ne_of_mem_of_not_mem hx h'.new
  have hdx : d ≠ x := ne_of_mem_of_not_mem hdns h.not_mem
  have hblnew : bl ∉ ds ++ ds' := fun hbl => h'.new (h.laid.given bl hbl)
  have hstep : Keeps s₂ s₃ (ds ++ ds') NULL := addBlock_keeps h.new hblnew _ _ _ NULL
  have hkeeps : Keeps s₁ s₃ (ds ++ ds') NULL := (h'.keeps.mono h.laid.given).trans hstep
  have hnull : NULL ∉ ns := fun hz => h.laid.given_ne_null (List.mem_append_left _ hz)
  have hold : Keeps s₁ s₃ ns d :=
    ((h'.keeps.mono fun n hn => List.mem_append_left _ hn).but hnull d).trans
      (addBlock_keeps h.not_mem (fun hbl => h'.new (List.mem_append_left _ hbl)) _ _ _ d)
  have hcommon : s₂.common = s₁.common := by rw [h'.rest]
  have hcommonx : s₃.common x = { s₁.common x with data := bl } := by
    rw [← hcommon]
    exact Function.update_self ..
  have hcommond : s₃.common d = s₁.common d := by
    rw [← hcommon]
    exact Function.update_of_ne hdx ..
  have hnodex : s₃.node x = s₂.node x := setType_ne s₂ hxbl .BLOCK
  have hnodebl : s₃.node bl = { s₂.node bl with type := .BLOCK } := setType_self s₂ bl .BLOCK
  have hblock : s₃.block bl = ⟨some actual, NULL, s₂.nextLba, bytes.length⟩ := Function.update_self ..
  have hformed : Formed H s₃ bl := by
    refine .block (by rw [hnodebl]; exact h'.size) (by rw [hnodebl]) actual bytes (by rw [hblock]) hfile
      (by rw [hblock]) (by rw [hblock]) ?_ ?_
    · rw [hblock, h'.lba]
      exact hlow
    · rw [hblock]
      exact le_rfl
  refine ⟨?_, ?_, h.keeps.trans hold, List.mem_append_left _ h.mem, ?_, fun n hn hne => ?_, ?_, ?_, ?_, ?_,
    ?_, ?_, ?_, ?_⟩
  · obtain ⟨f, hbump⟩ := h'.laid.bump
    have hmem : bl ∈ ns ++ es ++ [bl] := by simp
    have hlinks : s₃.links = s₁.links := by
      rw [show s₃.links = s₂.links from rfl, h'.rest]
      rfl
    rw [← List.append_assoc, ← List.append_assoc]
    refine ⟨⟨f, (hbump.retype hmem .BLOCK).setLba _⟩, h'.laid.first, h'.laid.lba,
      mem_append_of_given h'.laid.given hmem, ?_⟩
    refine h.laid.content.add hkeeps hlinks hblnew hformed ?_
    intro _
    rw [hblock, h'.lba]
  · have hleft := h.room
    omega
  · rw [← List.append_assoc]
    intro hmem
    rcases List.mem_append.mp hmem with hmem | hmem
    · exact h.new hmem
    · exact hxbl (List.mem_singleton.mp hmem)
  · rcases List.mem_append.mp hn with hn | hn
    · exact List.mem_append_left _ (h.done n hn hne)
    · exact List.mem_append_right _ hn
  · show s₂.nextLba + _ = _
    rw [h'.lba, h.lba, Nat.add_assoc]
  · rw [hnodex]
    exact (h'.keeps.node x hx).1.trans h.type
  · rw [hnodex]
    exact (h'.keeps.node x hx).2.1.trans h.size
  · rw [hcommonx]
    exact h.perm
  · rw [hcommonx]
    exact h.owner
  · rw [hcommonx]
    exact h.next
  · rw [hcommond]
    exact h.data
  · rw [hcommonx]
    refine h.name.keeps hkeeps ?_
    intro n hn
    rw [← List.append_assoc]
    exact List.mem_append_left _ hn

/-- The node `bl` has the contents of a file. -/
structure IsBlock (s : Image) (ds : List Ptr) (bl : Ptr) (actual : CStr) : Prop where
  mem  : bl ∈ ds
  type : (s.node bl).type = .BLOCK
  file : (s.block bl).filename = some actual

/-- `new_file` makes an entry, and a block of the disk for the bytes that the host has. -/
theorem newFile_spec (h : Laid H s m ns ds rem K) (hd : d ∈ ds) (htype : (s.node d).type = .DIRECTORY)
    (hshort : name.chars.length < 1999) {actual : CStr} {bytes : List UInt8}
    (hfile : H.file actual = some bytes) (hlow : 3 ≤ s.nextLba)
    (hhigh : s.nextLba + blocksFor bytes.length < wordSize) (hroom : 64 + need {name} K ≤ rem) :
    ∃ s' x es ds' rem', Settles (fun k => newFile H k name actual d s) (s', x) ∧
      Pending H s s' m d x ns ds es ds' rem rem' 64 (blocksFor bytes.length) K {name} .FILE name ∧
      IsBlock s' (ds ++ ds') (s'.common x).data actual := by
  obtain ⟨s₁, x, es, rem', ⟨k₁, hk₁⟩, hent⟩ := newCommon_spec h hd htype hshort (by omega)
  have hpend := hent.pending h.given .FILE
  have hleft := hpend.room
  obtain ⟨s₂, bl, ⟨k₂, hk₂⟩, hgets⟩ := newNode_spec hpend.laid sizeofBlock (show 32 ≤ rem' by omega)
  have hlba : s₂.nextLba = s.nextLba := hgets.lba.trans hent.lba
  have hpend₂ := hpend.addBlock (h.given d hd) hgets (by omega) hfile (hent.lba.symm ▸ hlow)
  rw [Nat.zero_add] at hpend₂
  have hself : (s₂.addBlock x bl actual bytes.length (blocksFor bytes.length)).common x =
      { s₂.common x with data := bl } := Function.update_self ..
  refine ⟨_, x, _, _, _, ⟨max k₁ k₂, ?_⟩, hpend₂, ?_⟩
  · intro k hk
    have hcommon : newCommon H k (some name) d s = some (s₁, x) := hk₁ k (le_of_max_le_left hk)
    have hnode : (s₁.setType x .FILE).newNode H k sizeofBlock = some (s₂, bl) :=
      hk₂ k (le_of_max_le_right hk)
    obtain ⟨f, hbump⟩ := hgets.laid.bump
    have hsize : s₂.blockSize = 0x1000 := hbump.size
    have hblocks : align bytes.length s₂.blockSize / s₂.blockSize = blocksFor bytes.length := by
      rw [hsize, align, blocksFor]
      omega
    have hmod : (s₂.nextLba + blocksFor bytes.length) % wordSize =
        s₂.nextLba + blocksFor bytes.length := Nat.mod_eq_of_lt (hlba.symm ▸ hhigh)
    have hbegin : (s₁.setType x .FILE).nextLba = s₂.nextLba := hgets.lba.symm
    simp only [newFile, hfile]
    rw [hcommon]
    simp only [Option.bind_eq_bind, Option.bind_some, newBlock, hnode, hbegin]
    rw [Image.addBlock, ← hmod, ← hblocks]
    rfl
  · have hblock : (s₂.addBlock x bl actual bytes.length (blocksFor bytes.length)).block bl =
        ⟨some actual, NULL, s₂.nextLba, bytes.length⟩ := Function.update_self ..
    rw [hself]
    exact ⟨by simp, congrArg Node.type (setType_self s₂ bl .BLOCK), congrArg BlockNode.filename hblock⟩

end Kinds

-- ---------------------------------------------------------------------------
-- Descriptions
-- ---------------------------------------------------------------------------

namespace Fsd

/-- The strings of a description. -/
def strings : Fsd → Finset CStr
  | .done => ∅
  | .file fields _ rest => {fields.name} ∪ fields.owner.toFinset ∪ rest.strings
  | .dir fields contents rest =>
    {fields.name} ∪ fields.owner.toFinset ∪ contents.strings ∪ rest.strings
  | .indir fields target rest => {fields.name} ∪ {target} ∪ fields.owner.toFinset ∪ rest.strings

/-- The bytes that the nodes take beside the strings. -/
def room : Fsd → Nat
  | .done => 0
  | .file _ _ rest => 64 + rest.room
  | .dir _ contents rest => 32 + contents.room + rest.room
  | .indir _ _ rest => 32 + rest.room

/-- The blocks that the files take. -/
def blocks (H : Host) : Fsd → Nat
  | .done => 0
  | .file _ actual rest => blocksFor ((H.file actual).getD []).length + rest.blocks H
  | .dir _ contents rest => contents.blocks H + rest.blocks H
  | .indir _ _ rest => rest.blocks H

/-- One description after the other. -/
def append : Fsd → Fsd → Fsd
  | .done, g => g
  | .file fields actual rest, g => .file fields actual (rest.append g)
  | .dir fields contents rest, g => .dir fields contents (rest.append g)
  | .indir fields target rest, g => .indir fields target (rest.append g)

/-- The strings of a tree in two parts. -/
theorem strings_append (f g : Fsd) : (f.append g).strings = f.strings ∪ g.strings := by
  induction f with
  | done => exact (Finset.empty_union _).symm
  | file fields actual rest ih => rw [append, strings, ih, strings, Finset.union_assoc _ rest.strings]
  | dir fields contents rest ihc ih =>
    rw [append, strings, ih, strings, Finset.union_assoc _ rest.strings]
  | indir fields target rest ih => rw [append, strings, ih, strings, Finset.union_assoc _ rest.strings]

/-- The room of a tree in two parts. -/
theorem room_append (f g : Fsd) : (f.append g).room = f.room + g.room := by
  induction f with
  | done => exact (Nat.zero_add _).symm
  | file fields actual rest ih => rw [append, room, ih, room, Nat.add_assoc]
  | dir fields contents rest ihc ih => rw [append, room, ih, room, Nat.add_assoc _ rest.room]
  | indir fields target rest ih => rw [append, room, ih, room, Nat.add_assoc]

/-- The disk blocks of a tree in two parts. -/
theorem blocks_append (H : Host) (f g : Fsd) : (f.append g).blocks H = f.blocks H + g.blocks H := by
  induction f with
  | done => exact (Nat.zero_add _).symm
  | file fields actual rest ih => rw [append, blocks, ih, blocks, Nat.add_assoc]
  | dir fields contents rest ihc ih => rw [append, blocks, ih, blocks, Nat.add_assoc]
  | indir fields target rest ih => rw [append, blocks, ih, blocks]

/-- The host has all the files. -/
def Readable (H : Host) : Fsd → Prop
  | .done => True
  | .file _ actual rest => (H.file actual).isSome ∧ rest.Readable H
  | .dir _ contents rest => contents.Readable H ∧ rest.Readable H
  | .indir _ _ rest => rest.Readable H

/-- A tree in two parts can be read if both can. -/
theorem readable_append (H : Host) (f g : Fsd) :
    (f.append g).Readable H ↔ f.Readable H ∧ g.Readable H := by
  induction f with
  | done => exact (true_and _).symm.to_iff
  | file fields actual rest ih => rw [append, Readable, ih, Readable, and_assoc]
  | dir fields contents rest ihc ih => rw [append, Readable, ih, Readable, and_assoc]
  | indir fields target rest ih => rw [append, Readable, ih, Readable]

end Fsd

/-- The strings are short enough for the assertion of `get_string`. -/
def Short (S : Finset CStr) : Prop := ∀ str ∈ S, str.chars.length < 1999

instance (S : Finset CStr) : Decidable (Short S) := inferInstanceAs (Decidable (∀ str ∈ S, _))

/-- The chain from `p` to `q` has the entries of the description, the last of them first. They
are among the nodes `es`, and their strings and blocks among `ds`. -/
def Grown (s : Image) (ds es : List Ptr) : Fsd → Attr → Ptr → Ptr → Prop
  | .done, _, q, p => p = q
  | .file fields actual rest, a, q, p => ∃ x ∈ es, Shaped s ds x .FILE fields a ∧
      (s.common x).next = q ∧ IsBlock s ds (s.common x).data actual ∧ Grown s ds es rest a x p
  | .dir fields contents rest, a, q, p => ∃ x ∈ es, Shaped s ds x .DIRECTORY fields a ∧
      (s.common x).next = q ∧ Grown s ds es contents (a.over fields) NULL (s.common x).data ∧
      Grown s ds es rest a x p
  | .indir fields target rest, a, q, p => ∃ x ∈ es, Shaped s ds x .INDIRECT fields a ∧
      (s.common x).next = q ∧ IsString s ds (s.common x).data target ∧ Grown s ds es rest a x p

section Keeping

variable {ds' es' : List Ptr} {t : FnodeType} {fields : Fields} {a : Attr}

/-- A field that was set stays so. -/
theorem Has.keeps (h : Has s ds x a) (hx : x ∈ ns) (hk : Keeps s s' ns d) (hds : ∀ n ∈ ds, n ∈ ns)
    (hsub : ∀ n ∈ ds, n ∈ ds') : Has s' ds' x a := by
  obtain ⟨data, hcommon, -⟩ := hk.common x hx
  refine ⟨?_, ?_, ?_⟩
  · rw [hcommon]
    exact h.perm
  · intro hnone
    rw [hcommon]
    exact h.none hnone
  · intro str hstr
    rw [hcommon]
    exact (h.owner str hstr).keeps (hk.mono hds) hsub

/-- An entry that was complete is still one. -/
theorem Shaped.keeps (h : Shaped s ds x t fields a) (hk : Keeps s s' ds d) (hsub : ∀ n ∈ ds, n ∈ ds') :
    Shaped s' ds' x t fields a := by
  obtain ⟨data, hcommon, -⟩ := hk.common x h.mem
  refine ⟨hsub x h.mem, (hk.node x h.mem).1.trans h.type, ?_,
    h.has.keeps h.mem hk (fun _ hn => hn) hsub⟩
  rw [hcommon]
  exact h.name.keeps hk hsub

/-- So is the block of a file. -/
theorem IsBlock.keeps {bl : Ptr} {actual : CStr} (h : IsBlock s ds bl actual) (hk : Keeps s s' ds d)
    (hsub : ∀ n ∈ ds, n ∈ ds') : IsBlock s' ds' bl actual :=
  ⟨hsub bl h.mem, (hk.node bl h.mem).1.trans h.type, by rw [hk.block bl h.mem]; exact h.file⟩

/-- A chain stays what it is while only the contents of a directory outside of it change. -/
theorem Grown.keeps {fsd : Fsd} {a : Attr} {q p : Ptr} (h : Grown s ds es fsd a q p)
    (hk : Keeps s s' ds d) (hd : d ∉ es) (hsub : ∀ n ∈ ds, n ∈ ds') (hes : ∀ n ∈ es, n ∈ es') :
    Grown s' ds' es' fsd a q p := by
  have hentry : ∀ {x}, x ∈ es → x ∈ ds →
      (s'.common x).next = (s.common x).next ∧ (s'.common x).data = (s.common x).data := by
    intro x hx hxds
    obtain ⟨data, hcommon, hdata⟩ := hk.common x hxds
    rw [hcommon]
    exact ⟨rfl, hdata (ne_of_mem_of_not_mem hx hd)⟩
  induction fsd generalizing a q p with
  | done => exact h
  | file fields actual rest ih =>
    obtain ⟨x, hx, hshaped, hnext, hblock, hrest⟩ := h
    obtain ⟨hn, hdata⟩ := hentry hx hshaped.mem
    refine ⟨x, hes x hx, hshaped.keeps hk hsub, hn.trans hnext, ?_, ih hrest⟩
    rw [hdata]
    exact hblock.keeps hk hsub
  | dir fields contents rest ihc ih =>
    obtain ⟨x, hx, hshaped, hnext, hcontents, hrest⟩ := h
    obtain ⟨hn, hdata⟩ := hentry hx hshaped.mem
    refine ⟨x, hes x hx, hshaped.keeps hk hsub, hn.trans hnext, ?_, ih hrest⟩
    rw [hdata]
    exact ihc hcontents
  | indir fields target rest ih =>
    obtain ⟨x, hx, hshaped, hnext, hstring, hrest⟩ := h
    obtain ⟨hn, hdata⟩ := hentry hx hshaped.mem
    refine ⟨x, hes x hx, hshaped.keeps hk hsub, hn.trans hnext, ?_, ih hrest⟩
    rw [hdata]
    exact hstring.keeps hk hsub

end Keeping

/-- A chain of entries in two parts. -/
theorem grown_append {f g : Fsd} {a : Attr} {q p : Ptr} :
    Grown s ds es (f.append g) a q p ↔ ∃ r, Grown s ds es f a q r ∧ Grown s ds es g a r p := by
  induction f generalizing q with
  | done =>
    constructor
    · exact fun h => ⟨q, rfl, h⟩
    · rintro ⟨r, rfl, h⟩
      exact h
  | file fields actual rest ih =>
    constructor
    · rintro ⟨x, hx, hshaped, hnext, hblock, h⟩
      obtain ⟨r, hf, hg⟩ := ih.mp h
      exact ⟨r, ⟨x, hx, hshaped, hnext, hblock, hf⟩, hg⟩
    · rintro ⟨r, ⟨x, hx, hshaped, hnext, hblock, hf⟩, hg⟩
      exact ⟨x, hx, hshaped, hnext, hblock, ih.mpr ⟨r, hf, hg⟩⟩
  | dir fields contents rest ihc ih =>
    constructor
    · rintro ⟨x, hx, hshaped, hnext, hcontents, h⟩
      obtain ⟨r, hf, hg⟩ := ih.mp h
      exact ⟨r, ⟨x, hx, hshaped, hnext, hcontents, hf⟩, hg⟩
    · rintro ⟨r, ⟨x, hx, hshaped, hnext, hcontents, hf⟩, hg⟩
      exact ⟨x, hx, hshaped, hnext, hcontents, ih.mpr ⟨r, hf, hg⟩⟩
  | indir fields target rest ih =>
    constructor
    · rintro ⟨x, hx, hshaped, hnext, hstring, h⟩
      obtain ⟨r, hf, hg⟩ := ih.mp h
      exact ⟨r, ⟨x, hx, hshaped, hnext, hstring, hf⟩, hg⟩
    · rintro ⟨r, ⟨x, hx, hshaped, hnext, hstring, hf⟩, hg⟩
      exact ⟨x, hx, hshaped, hnext, hstring, ih.mpr ⟨r, hf, hg⟩⟩

-- ---------------------------------------------------------------------------
-- parse_directory
-- ---------------------------------------------------------------------------

/-- The entries of a directory are made in the order of their directives. -/
theorem parseDirectory_append (H : Host) (k : Nat) (f g : Fsd) (d : Ptr) (s : Image) :
    parseDirectory H k (f.append g) d s =
      (parseDirectory H k f d s).bind (parseDirectory H k g d) := by
  induction f generalizing s with
  | done => rfl
  | file fields actual rest ih =>
    simp only [Fsd.append, parseDirectory, ih, Option.bind_eq_bind, Option.bind_assoc]
  | dir fields contents rest ihc ih =>
    simp only [Fsd.append, parseDirectory, ih, Option.bind_eq_bind, Option.bind_assoc]
  | indir fields target rest ih =>
    simp only [Fsd.append, parseDirectory, ih, Option.bind_eq_bind, Option.bind_assoc]

/-- The description fits, in the directory `d`. -/
structure Fits (H : Host) (s : Image) (m d : Ptr) (ns ds : List Ptr) (rem : Nat) (K : Finset CStr)
    (a : Attr) (fsd : Fsd) : Prop where
  laid  : Laid H s m ns ds rem K
  mem   : d ∈ ds
  dir   : (s.node d).type = .DIRECTORY
  has   : Has s ds d a
  short : Short fsd.strings
  read  : fsd.Readable H
  low   : 3 ≤ s.nextLba
  high  : s.nextLba + fsd.blocks H < wordSize
  room  : fsd.room + need fsd.strings K ≤ rem

/-- The description is built, in the directory `d`. -/
def Builds (H : Host) (s : Image) (m d : Ptr) (ns ds : List Ptr) (rem : Nat) (K : Finset CStr)
    (a : Attr) (fsd : Fsd) : Prop :=
  ∃ s' es ds' rem', Settles (fun k => parseDirectory H k fsd d s) s' ∧
    Grows H s s' m d ns ds es ds' rem rem' fsd.room (fsd.blocks H) K fsd.strings ∧
    Grown s' (ds ++ ds') es fsd a (s.common d).data (s'.common d).data

section Parsing

variable {ds' : List Ptr} {a : Attr} {f g : Fsd}

/-- If the whole fits, so does its first part. -/
theorem Fits.first (h : Fits H s m d ns ds rem K a (f.append g)) : Fits H s m d ns ds rem K a f := by
  obtain ⟨laid, mem, dir, has, short, read, low, high, room⟩ := h
  rw [Fsd.strings_append] at short room
  rw [Fsd.readable_append] at read
  rw [Fsd.blocks_append] at high
  rw [Fsd.room_append, need_union] at room
  exact ⟨laid, mem, dir, has, fun str hstr => short str (Finset.mem_union_left _ hstr), read.1, low,
    by omega, by omega⟩

/-- Behind the first part there is room for the second. -/
theorem Fits.second (h : Fits H s m d ns ds rem K a (f.append g))
    (h' : Grows H s s' m d ns ds es ds' rem rem' f.room (f.blocks H) K f.strings) :
    Fits H s' m d (ns ++ es) (ds ++ ds') rem' (K ∪ f.strings) a g := by
  obtain ⟨laid, mem, dir, has, short, read, low, high, room⟩ := h
  rw [Fsd.strings_append] at short room
  rw [Fsd.readable_append] at read
  rw [Fsd.blocks_append] at high
  rw [Fsd.room_append, need_union] at room
  have hd := laid.given d mem
  have hroom := h'.room
  have hlba := h'.lba
  exact ⟨h'.laid, List.mem_append_left _ mem, (h'.keeps.node d hd).1.trans dir,
    has.keeps hd h'.keeps laid.given fun _ hn => List.mem_append_left _ hn,
    fun str hstr => short str (Finset.mem_union_right _ hstr), read.2, by omega, by omega, by omega⟩

/-- The nodes of what was built are new. -/
theorem Grows.new {room blocks : Nat} (h : Grows H s s' m d ns ds es ds' rem rem' room blocks K S)
    (hx : x ∈ ns) : x ∉ es :=
  fun hmem => (List.nodup_append.mp h.laid.nodup).2.2 x hx x hmem rfl

/-- One description after the other: the chain of the first stays under that of the second. -/
theorem Builds.append (hfits : Fits H s m d ns ds rem K a (f.append g))
    (hf : Builds H s m d ns ds rem K a f)
    (hg : ∀ {s' : Image} {ns ds : List Ptr} {rem : Nat} {K : Finset CStr},
      Fits H s' m d ns ds rem K a g → Builds H s' m d ns ds rem K a g) :
    Builds H s m d ns ds rem K a (f.append g) := by
  obtain ⟨s₁, es₁, ds₁, rem₁, hrun₁, hgrows₁, hgrown₁⟩ := hf
  obtain ⟨s₂, es₂, ds₂, rem₂, hrun₂, hgrows₂, hgrown₂⟩ := hg (hfits.second hgrows₁)
  have hd := hfits.laid.given d hfits.mem
  have hkeeps : Keeps s₁ s₂ ns d := hgrows₂.keeps.mono fun n hn => List.mem_append_left _ hn
  refine ⟨s₂, es₁ ++ es₂, ds₁ ++ ds₂, rem₂, ?_, ?_, ?_⟩
  · simp only [parseDirectory_append]
    exact hrun₁.bind hrun₂
  · rw [Fsd.room_append, Fsd.blocks_append, Fsd.strings_append]
    exact hgrows₁.append hgrows₂ hkeeps
  · rw [← List.append_assoc]
    refine grown_append.mpr ⟨(s₁.common d).data, ?_, ?_⟩
    · exact hgrown₁.keeps (hgrows₂.keeps.mono hgrows₁.laid.given) (hgrows₁.new hd)
        (fun _ hn => List.mem_append_left _ hn) fun _ hn => List.mem_append_left _ hn
    · exact hgrown₂.keeps (.refl s₂ _ d) (hgrows₂.new (List.mem_append_left _ hd)) (fun _ hn => hn)
        fun _ hn => List.mem_append_right _ hn

/-- One file is built. -/
theorem builds_file {fields : Fields} {actual : CStr}
    (h : Fits H s m d ns ds rem K a (.file fields actual .done)) :
    Builds H s m d ns ds rem K a (.file fields actual .done) := by
  obtain ⟨laid, mem, dir, has, short, read, low, high, room⟩ := h
  obtain ⟨bytes, hfile⟩ := Option.isSome_iff_exists.mp read.1
  have hstrings : (Fsd.file fields actual .done).strings = {fields.name} ∪ fields.owner.toFinset :=
    Finset.union_empty _
  have hblocks : (Fsd.file fields actual .done).blocks H = blocksFor bytes.length := by
    rw [Fsd.blocks, hfile]
    rfl
  have hsize : (Fsd.file fields actual .done).room = 64 := rfl
  rw [hstrings] at short room
  rw [hblocks] at high
  rw [hsize, need_union] at room
  obtain ⟨s₁, x, es₁, ds₁, rem₁, ⟨k₁, hk₁⟩, hpend, hblock⟩ := newFile_spec laid mem dir
    (short fields.name (by simp)) hfile low high (by omega)
  have hleft := hpend.room
  obtain ⟨s₂, es₂, rem₂, ⟨k₂, hk₂⟩, hgrows, hshaped, hnext, hdata, hsame, hkept⟩ := confirm_spec hpend
    (.inl rfl) mem laid.given has (fun str hstr => short str (by simp [hstr])) (by omega)
  refine ⟨s₂, es₁ ++ es₂, ds₁ ++ (es₂ ++ [x]), rem₂, ⟨max k₁ k₂, ?_⟩, ?_, ?_⟩
  · intro k hk
    have h₁ : newFile H k fields.name actual d s = some (s₁, x) := hk₁ k (le_of_max_le_left hk)
    have h₂ : confirmCommon H k fields x s₁ = some s₂ := hk₂ k (le_of_max_le_right hk)
    simp only [parseDirectory]
    rw [h₁]
    simp only [Option.bind_eq_bind, Option.bind_some, h₂]
  · rw [hstrings, hblocks, hsize]
    exact hgrows
  · refine ⟨x, List.mem_append_left _ hpend.mem, hshaped, hnext, ?_, hdata⟩
    rw [hsame]
    refine hblock.keeps hkept ?_
    intro n hn
    rw [← List.append_assoc]
    exact List.mem_append_left _ hn

/-- One indirect entry is built. -/
theorem builds_indir {fields : Fields} {target : CStr}
    (h : Fits H s m d ns ds rem K a (.indir fields target .done)) :
    Builds H s m d ns ds rem K a (.indir fields target .done) := by
  obtain ⟨laid, mem, dir, has, short, read, low, high, room⟩ := h
  have hstrings : (Fsd.indir fields target .done).strings =
      {fields.name} ∪ {target} ∪ fields.owner.toFinset := Finset.union_empty _
  have hsize : (Fsd.indir fields target .done).room = 32 := rfl
  rw [hstrings] at short room
  rw [hsize, need_union] at room
  obtain ⟨s₁, x, es₁, ds₁, rem₁, ⟨k₁, hk₁⟩, hpend, hstring⟩ := newIndir_spec laid mem dir
    (short fields.name (by simp)) (short target (by simp)) (by omega)
  have hleft := hpend.room
  obtain ⟨s₂, es₂, rem₂, ⟨k₂, hk₂⟩, hgrows, hshaped, hnext, hdata, hsame, hkept⟩ := confirm_spec hpend
    (.inr (.inr rfl)) mem laid.given has (fun str hstr => short str (by simp [hstr])) (by omega)
  refine ⟨s₂, es₁ ++ es₂, ds₁ ++ (es₂ ++ [x]), rem₂, ⟨max k₁ k₂, ?_⟩, ?_, ?_⟩
  · intro k hk
    have h₁ : newIndir H k fields.name target d s = some (s₁, x) := hk₁ k (le_of_max_le_left hk)
    have h₂ : confirmCommon H k fields x s₁ = some s₂ := hk₂ k (le_of_max_le_right hk)
    simp only [parseDirectory]
    rw [h₁]
    simp only [Option.bind_eq_bind, Option.bind_some, h₂]
  · rw [hstrings, hsize]
    exact hgrows
  · refine ⟨x, List.mem_append_left _ hpend.mem, hshaped, hnext, ?_, hdata⟩
    rw [hsame]
    refine hstring.keeps hkept ?_
    intro n hn
    rw [← List.append_assoc]
    exact List.mem_append_left _ hn

/-- A directory, given how its contents are built. -/
theorem builds_dir {fields : Fields} {contents : Fsd}
    (h : Fits H s m d ns ds rem K a (.dir fields contents .done))
    (hc : ∀ {s' : Image} {x : Ptr} {ns ds : List Ptr} {rem : Nat} {K : Finset CStr} {a : Attr},
      Fits H s' m x ns ds rem K a contents → Builds H s' m x ns ds rem K a contents) :
    Builds H s m d ns ds rem K a (.dir fields contents .done) := by
  obtain ⟨laid, mem, dir, has, short, read, low, high, room⟩ := h
  have hstrings : (Fsd.dir fields contents .done).strings =
      {fields.name} ∪ fields.owner.toFinset ∪ contents.strings := Finset.union_empty _
  have hsize : (Fsd.dir fields contents .done).room = 32 + contents.room := rfl
  have hblocks : (Fsd.dir fields contents .done).blocks H = contents.blocks H := rfl
  rw [hstrings] at short room
  rw [hblocks] at high
  rw [hsize, need_union, need_union] at room
  obtain ⟨s₁, x, es₁, rem₁, ⟨k₁, hk₁⟩, hpend, hempty⟩ := newDir_spec laid mem dir
    (short fields.name (by simp)) (by omega)
  have hleft := hpend.room
  obtain ⟨s₂, es₂, rem₂, ⟨k₂, hk₂⟩, hgrows, hshaped, hnext, hdata, hsame, hkept⟩ := confirm_spec hpend
    (.inr (.inl rfl)) mem laid.given has (fun str hstr => short str (by simp [hstr])) (by omega)
  have hleft₂ := hgrows.room
  have hlba₂ := hgrows.lba
  rw [need_union] at hleft₂
  -- the contents go into the new directory
  obtain ⟨s₃, es₃, ds₃, rem₃, ⟨k₃, hk₃⟩, hgrows₃, hgrown₃⟩ := hc ⟨hgrows.laid, hshaped.mem, hshaped.type,
    hshaped.has, fun str hstr => short str (Finset.mem_union_right _ hstr), read.1, by omega, by omega,
    by omega⟩
  have hd := laid.given d mem
  have hxns : x ∉ ns := hpend.not_mem
  have hkeeps : Keeps s₂ s₃ ns d :=
    (hgrows₃.keeps.mono fun n hn => List.mem_append_left _ hn).outside hxns d
  obtain ⟨datax, hcommonx, -⟩ := hgrows₃.keeps.common x (hgrows.laid.given x hshaped.mem)
  obtain ⟨datad, hcommond, hsamed⟩ := hgrows₃.keeps.common d (List.mem_append_left _ hd)
  refine ⟨s₃, x :: es₁ ++ es₂ ++ es₃, es₁ ++ (es₂ ++ [x]) ++ ds₃, rem₃,
    ⟨max k₁ (max k₂ k₃), fun k hk => ?_⟩, ?_, ?_⟩
  · have h₁ : newDir H k (some fields.name) d s = some (s₁, x) := hk₁ k (by omega)
    have h₂ : confirmCommon H k fields x s₁ = some s₂ := hk₂ k (by omega)
    have h₃ : parseDirectory H k contents x s₂ = some s₃ := hk₃ k (by omega)
    simp only [parseDirectory]
    rw [h₁]
    simp only [Option.bind_eq_bind, Option.bind_some, h₂, h₃]
  · have hall := hgrows.append hgrows₃ hkeeps
    rw [Nat.zero_add] at hall
    rw [hstrings, hsize, hblocks]
    exact hall
  · rw [← List.append_assoc]
    refine ⟨x, by simp, ?_, ?_, ?_, ?_⟩
    · exact hshaped.keeps (hgrows₃.keeps.mono hgrows.laid.given) fun _ hn => List.mem_append_left _ hn
    · rw [hcommonx]
      exact hnext
    · rw [hsame, hempty] at hgrown₃
      exact hgrown₃.keeps (.refl s₃ _ d) (hgrows₃.new (List.mem_append_left _ hd)) (fun _ hn => hn)
        fun _ hn => List.mem_append_right _ hn
    · rw [hcommond, hsamed (ne_of_mem_of_not_mem hd hxns)]
      exact hdata

/-- What fits is built, by induction over the tree. -/
theorem builds_of_fits {fsd : Fsd} (h : Fits H s m d ns ds rem K a fsd) :
    Builds H s m d ns ds rem K a fsd := by
  induction fsd generalizing s d ns ds rem K a with
  | done => exact ⟨s, [], [], rem, settles_of_eq fun _ => rfl, .refl h.laid d, rfl⟩
  | file fields actual rest ih =>
    have hone : (Fsd.file fields actual .done).append rest = .file fields actual rest := rfl
    rw [← hone] at h ⊢
    exact .append h (builds_file h.first) ih
  | dir fields contents rest ihc ih =>
    have hone : (Fsd.dir fields contents .done).append rest = .dir fields contents rest := rfl
    rw [← hone] at h ⊢
    exact .append h (builds_dir h.first ihc) ih
  | indir fields target rest ih =>
    have hone : (Fsd.indir fields target .done).append rest = .indir fields target rest := rfl
    rw [← hone] at h ⊢
    exact .append h (builds_indir h.first) ih

end Parsing

-- ---------------------------------------------------------------------------
-- parse_fsd
-- ---------------------------------------------------------------------------

/-- The image that a description gives, whose nodes are all in the first metadata block. -/
structure Built (H : Host) (s : Image) (fsd : Fsd) (a : Attr) (m : Ptr) (ns ds es : List Ptr)
    (rem : Nat) (K : Finset CStr) : Prop where
  laid  : Laid H s m ns ds rem K
  null  : m ≠ NULL
  done  : ∀ n ∈ ns, n ∈ ds
  root  : s.root ∈ ds
  dir   : (s.node s.root).type = .DIRECTORY
  next  : (s.common s.root).next = NULL
  has   : Has s ds s.root a
  grown : Grown s ds es fsd a NULL (s.common s.root).data
  lba   : s.nextLba = 3 + fsd.blocks H

theorem newMeta_ne_null {E : Env} {branch : Ptr} {s s' : State} (h : newMeta E branch s = some (s', m)) :
    m ≠ NULL := by
  rw [newMeta] at h
  split at h
  · cases h
  · obtain rfl := congrArg Prod.snd (Option.some.inj h)
    exact E.malloc.ne_null _

/-- The table of strings is empty at first. -/
theorem table_nil (htable : s.strtbl = NULL) : Table s [] (fun _ => NULL) .nil ∅ :=
  ⟨htable, List.Pairwise.nil, nofun, fun str => ⟨fun h => absurd h (Finset.notMem_empty str), nofun⟩⟩

/-- The invariant holds when nothing is built yet. -/
theorem laid_nil {f : Option Ptr} (hbump : Bump .default s.toState m ns f rem) (hfirst : s.firstMeta = m)
    (hlba : (s.metaAt m).lba = 1) (htable : s.strtbl = NULL) : Laid H s m ns [] rem ∅ :=
  ⟨⟨f, hbump⟩, hfirst, hlba, nofun, .nil, ⟨_, _, table_nil htable⟩, nofun, .nil⟩

/-- The root directory, before its owner is stored. -/
theorem newRoot_spec (h : Laid H s m [] [] rem ∅) (htable : s.strtbl = NULL) (hroom : 32 ≤ rem) (perm : Nat) :
    ∃ s' x, Settles (fun k => newDir H k none NULL s) (s', x) ∧
      let s₁ := { s' with root := x }.setCommon x fun v => { v with perm := perm }
      Laid H s₁ m [x] [] (rem - 32) ∅ ∧ (s₁.node x).type = .DIRECTORY ∧ (s₁.node x).size = 32 ∧
      s₁.common x = ⟨perm, NULL, NULL, NULL, NULL⟩ ∧ s₁.nextLba = s.nextLba := by
  obtain ⟨s₁, x, ⟨k₁, hk₁⟩, hgets⟩ := newNode_spec h sizeofCommon (show 32 ≤ rem from hroom)
  let s₂ := s₁.setCommon x fun v => { v with perm := 0, owner := NULL, next := NULL }
  let s₃ := s₂.setCommon x fun v => { v with name := NULL }
  let s₄ := (s₃.setType x .DIRECTORY).setCommon x fun v => { v with data := NULL }
  have htype : (s₄.node x).type = .DIRECTORY := congrArg Node.type (setType_self s₃ x .DIRECTORY)
  have hsize : (s₄.node x).size = 32 := by
    rw [show s₄.node x = _ from setType_self s₃ x .DIRECTORY]
    exact hgets.size
  refine ⟨s₄, x, ⟨k₁, ?_⟩, ?_, htype, hsize, ?_, hgets.lba⟩
  · intro k hk
    have hnode : s.newNode H k sizeofCommon = some (s₁, x) := hk₁ k hk
    simp only [newDir, newCommon]
    rw [hnode]
    rfl
  · obtain ⟨f, hbump⟩ := hgets.laid.bump
    have hgiven : x ∈ [] ++ [x] := by simp
    refine laid_nil (hbump.retype hgiven .DIRECTORY) hgets.laid.first hgets.laid.lba ?_
    have hrest : s₁.strtbl = s.strtbl := by rw [hgets.rest]
    exact hrest.trans htable
  · simp only [s₄, s₃, s₂, Image.setCommon, Image.setType, Function.update_self]

/-- The owner of the root, after which the directory is complete. -/
theorem ownRoot_spec (h : Laid H s m [x] [] rem ∅) (htype : (s.node x).type = .DIRECTORY)
    (hsize : (s.node x).size = 32) {perm : Nat} (hcommon : s.common x = ⟨perm, NULL, NULL, NULL, NULL⟩)
    {rowner : Option CStr} (hshort : Short rowner.toFinset) (hroom : need rowner.toFinset ∅ ≤ rem) :
    ∃ s' p es rem', Settles (fun k => getString H k rowner s) (s', p) ∧
      let s₁ := s'.setCommon x fun v => { v with owner := p }
      Laid H s₁ m ([x] ++ es) (es ++ [x]) rem' rowner.toFinset ∧ rem' + need rowner.toFinset ∅ = rem ∧
      (s₁.node x).type = .DIRECTORY ∧ Has s₁ (es ++ [x]) x ⟨perm, rowner⟩ ∧
      (s₁.common x).next = NULL ∧ (s₁.common x).data = NULL ∧ s₁.nextLba = s.nextLba ∧
      s₁.root = s.root := by
  cases rowner with
  | none =>
    have hself : (s.setCommon x fun v => { v with owner := NULL }).common x =
        ⟨perm, NULL, NULL, NULL, NULL⟩ := by
      rw [setCommon_self, hcommon]
    have hlaid := (h.setCommon (x := x) List.not_mem_nil fun v => { v with owner := NULL }).complete
      (List.mem_singleton_self x) List.not_mem_nil hsize (.inr (.inl htype))
    refine ⟨s, NULL, [], rem, settles_of_eq fun _ => rfl, hlaid, ?_, htype, ?_, ?_, ?_, rfl, rfl⟩
    · rw [Option.toFinset_none, need_empty, Nat.add_zero]
    · refine ⟨?_, ?_, nofun⟩
      · rw [hself]
      · intro _
        rw [hself]
    · rw [hself]
    · rw [hself]
  | some owner =>
    rw [Option.toFinset_some] at hshort hroom ⊢
    obtain ⟨s₁, p, es, rem', hrun, hint⟩ := getString_spec h
      (hshort owner (Finset.mem_singleton_self owner)) hroom
    have hself : (s₁.setCommon x fun v => { v with owner := p }).common x =
        ⟨perm, NULL, p, NULL, NULL⟩ := by
      rw [setCommon_self, hint.common, hcommon]
    obtain ⟨htype', hsize', -⟩ := hint.keeps.node x (List.mem_singleton_self x)
    have hx : x ∉ [] ++ es := by
      have hnodup := hint.laid.nodup
      exact fun hx => (List.nodup_append.mp hnodup).2.2 x (List.mem_singleton_self x) x hx rfl
    have hlaid := (hint.laid.setCommon hx fun v => { v with owner := p }).complete
      (by simp) hx (hsize'.trans hsize) (.inr (.inl (htype'.trans htype)))
    refine ⟨s₁, p, es, rem', hrun, hlaid, hint.room, htype'.trans htype, ?_, ?_, ?_, hint.lba,
      hint.keeps.root⟩
    · refine ⟨?_, nofun, ?_⟩
      · rw [hself]
      · intro str hstr
        obtain rfl := Option.some.inj hstr
        rw [hself]
        exact ⟨List.mem_append_left _ hint.string.mem, hint.string.type, hint.string.value⟩
    · rw [hself]
    · rw [hself]

/-- `parse_fsd` with the default options, for a description that fits in the first metadata
block. -/
theorem parseFsd_spec (H : Host) (rperm : Nat) (rowner : Option CStr) (fsd : Fsd) (s : Image)
    (hshort : Short (rowner.toFinset ∪ fsd.strings)) (hread : fsd.Readable H)
    (hhigh : 3 + fsd.blocks H < wordSize)
    (hroom : 32 + fsd.room + need (rowner.toFinset ∪ fsd.strings) ∅ ≤ BlockSize.default.room) :
    ∃ s' m ns ds es rem K, Settles (fun k => parseFsd H k 0x1000 1 rperm rowner fsd s) s' ∧
      Built H s' fsd ⟨rperm % 0x10000, rowner⟩ m ns ds es rem K := by
  rw [need_union] at hroom
  obtain ⟨m, fr, hmeta, hbump, hlba, hnext⟩ := start_bump H.toEnv .default 1 s.node s.metaAt
  let s₀ : Image := { s with
    toState := State.start H.toEnv .default 1 s.node s.metaAt, firstMeta := m, freeData := NULL,
    strtbl := NULL }
  have hlaid₀ : Laid H s₀ m [] [] BlockSize.default.room ∅ := laid_nil hbump rfl hlba rfl
  obtain ⟨s₁, x, ⟨k₁, hk₁⟩, hlaid₁, htype₁, hsize₁, hcommon₁, hlba₁⟩ :=
    newRoot_spec hlaid₀ rfl (by omega) (rperm % 0x10000)
  obtain ⟨s₂, p, es₂, rem₂, ⟨k₂, hk₂⟩, hlaid₂, hroom₂, htype₂, hhas₂, hnext₂, hdata₂, hlba₂, hroot₂⟩ :=
    ownRoot_spec hlaid₁ htype₁ hsize₁ hcommon₁
      (fun str hstr => hshort str (Finset.mem_union_left _ hstr)) (by omega)
  let s₃ := s₂.setCommon x fun v => { v with owner := p }
  have hlba₃ : s₃.nextLba = 3 := by
    rw [hlba₂, hlba₁]
    exact hnext
  have hfits :
      Fits H s₃ m x ([x] ++ es₂) (es₂ ++ [x]) rem₂ rowner.toFinset ⟨rperm % 0x10000, rowner⟩ fsd := by
    refine ⟨hlaid₂, by simp, htype₂, hhas₂, fun str hstr => hshort str (Finset.mem_union_right _ hstr),
      hread, hlba₃.ge, by omega, ?_⟩
    rw [Finset.empty_union] at hroom
    omega
  obtain ⟨s₄, es₄, ds₄, rem₄, ⟨k₄, hk₄⟩, hgrows, hgrown⟩ := builds_of_fits hfits
  have hx : x ∈ [x] ++ es₂ := by simp
  obtain ⟨data, hcommon₄, -⟩ := hgrows.keeps.common x hx
  have hroot : s₄.root = x := hgrows.keeps.root.trans hroot₂
  refine ⟨s₄, m, _, _, es₄, rem₄, _, ⟨max k₁ (max k₂ k₄), fun k hk => ?_⟩, hgrows.laid,
    newMeta_ne_null hmeta, fun n hn => ?_, ?_, ?_, ?_, ?_, ?_, ?_⟩
  · have h₁ : newDir H k none NULL s₀ = some (s₁, x) := hk₁ k (by omega)
    have h₂ : getString H k rowner _ = some (s₂, p) := hk₂ k (by omega)
    have h₄ : parseDirectory H k fsd x s₃ = some s₄ := hk₄ k (by omega)
    have hstart : newMeta H.toEnv NULL { s with
        nodes := [], metas := [], blockSize := 0x1000, nextLba := 1, freeMeta := NULL }.toState =
        some (State.start H.toEnv .default 1 s.node s.metaAt, m) := hmeta
    simp only [parseFsd]
    rw [hstart]
    simp only [Option.bind_eq_bind, Option.bind_some]
    refine (congrArg (Option.bind · _) h₁).trans ?_
    refine (congrArg (Option.bind · _) h₂).trans ?_
    exact h₄
  · rcases List.mem_append.mp hn with hn | hn
    · rcases List.mem_append.mp hn with hn | hn
      · exact List.mem_append_left _ (List.mem_append_right _ hn)
      · exact List.mem_append_left _ (List.mem_append_left _ hn)
    · exact List.mem_append_right _ (hgrows.done n hn)
  · rw [hroot]
    simp
  · rw [hroot]
    exact (hgrows.keeps.node x hx).1.trans htype₂
  · rw [hroot, hcommon₄]
    exact hnext₂
  · rw [hroot]
    exact hhas₂.keeps hx hgrows.keeps hlaid₂.given fun _ hn => List.mem_append_left _ hn
  · rw [hroot]
    rw [hdata₂] at hgrown
    exact hgrown
  · rw [hgrows.lba, hlba₃]

end Frosk.Builder
