import Frosk.Lib.Dll
import Frosk.Queue.Locking

/-!
# Message queues: the list

The queue as a list. `Lists s l` says that the records `l`, oldest first, are
what `head`, `tail`, `next` and `prev` describe, and `Stored s l` that the
storage behind them is in use and not shared.

* `unlink_spec` — all three ways in which `consume_msg` takes a message out are
  one edit of the list, `splice`, seen from its two ends and its middle.
* `stored_remove` — giving back the storage of that message leaves the others
  with their bytes.
* `sendMsg_spec` — a send adds one record, with its bytes, at the newer end.
-/

namespace Frosk.Queue

open Lib

-- ---------------------------------------------------------------------------
-- Fields after the list edits
-- ---------------------------------------------------------------------------

namespace State

/-- Storing a link to the next message. -/
theorem setNext_msg (s : State) (p v x : Ptr) :
    (s.setNext p v).msg x = if x = p then { s.msg p with next := v } else s.msg x := by
  simp [setNext, setMsg, msg, Function.update_apply]

theorem setPrev_msg (s : State) (p v x : Ptr) :
    (s.setPrev p v).msg x = if x = p then { s.msg p with prev := v } else s.msg x := by
  simp [setPrev, setMsg, msg, Function.update_apply]

@[simp] theorem setHead_msg (s : State) (v : Ptr) : (s.setHead v).msg = s.msg := rfl
@[simp] theorem setTail_msg (s : State) (v : Ptr) : (s.setTail v).msg = s.msg := rfl
@[simp] theorem kfree_msg (s : State) (p : Ptr) : (s.kfree p).msg = s.msg := rfl
@[simp] theorem unlockQueue_msg (t : Tid) (s : State) : (unlockQueue t s).msg = s.msg := rfl

end State

/-- The records `l`, oldest first, are the queue. -/
structure Lists (s : State) (l : List Ptr) : Prop where
  tail    : s.q.tail = l.headD NULL
  head    : s.q.head = l.getLastD NULL
  linked  : Linked (fun p => (s.msg p).next) (fun p => (s.msg p).prev) NULL l NULL
  nodup   : l.Nodup
  nonnull : NULL ∉ l

/-- The head is null when the list is empty. -/
theorem Lists.head_null_iff {s : State} {l : List Ptr} (h : Lists s l) :
    s.q.head = NULL ↔ l = [] := by
  rw [h.head]
  constructor
  · intro hlast
    by_contra hne
    exact h.nonnull (hlast ▸ getLastD_mem hne NULL)
  · rintro rfl
    rfl

/-- The neighbours of a record of the queue. -/
theorem Lists.neighbours {s : State} {l₁ l₂ : List Ptr} {m : Ptr} (h : Lists s (l₁ ++ m :: l₂)) :
    (s.msg m).next = l₁.getLastD NULL ∧ (s.msg m).prev = l₂.headD NULL := by
  obtain ⟨_, hn, hp, _⟩ := linked_append.mp h.linked
  exact ⟨hn, hp⟩

-- ---------------------------------------------------------------------------
-- Taking a message out
-- ---------------------------------------------------------------------------

/-- `m->prev->next = m->next; m->next->prev = m->prev`, where they exist. -/
def splice (prev next : Ptr) (s : State) : State := (s.tryNext prev next).tryPrev next prev

/-- Joining two messages sets the link forward. -/
theorem splice_next (prev next x : Ptr) (s : State) :
    ((splice prev next s).msg x).next =
      if x = prev ∧ prev ≠ NULL then next else (s.msg x).next := by
  by_cases hp : prev = NULL <;> by_cases hn : next = NULL <;>
    simp [splice, State.tryNext, State.tryPrev, hp, hn, State.setNext_msg,
      State.setPrev_msg] <;> split_ifs <;> simp_all

theorem splice_prev (prev next x : Ptr) (s : State) :
    ((splice prev next s).msg x).prev =
      if x = next ∧ next ≠ NULL then prev else (s.msg x).prev := by
  by_cases hp : prev = NULL <;> by_cases hn : next = NULL <;>
    simp [splice, State.tryNext, State.tryPrev, hp, hn, State.setNext_msg,
      State.setPrev_msg] <;> split_ifs <;> simp_all

theorem splice_data (prev next x : Ptr) (s : State) :
    ((splice prev next s).msg x).data = (s.msg x).data ∧
      ((splice prev next s).msg x).size = (s.msg x).size := by
  by_cases hp : prev = NULL <;> by_cases hn : next = NULL <;>
    simp [splice, State.tryNext, State.tryPrev, hp, hn, State.setNext_msg,
      State.setPrev_msg] <;> split_ifs <;> simp_all

/-- The links after a splice are those of the shorter list. -/
theorem splice_linked {s : State} {l₁ l₂ : List Ptr} {m : Ptr} (h : Lists s (l₁ ++ m :: l₂)) :
    Linked (fun p => ((splice (l₂.headD NULL) (l₁.getLastD NULL) s).msg p).next)
      (fun p => ((splice (l₂.headD NULL) (l₁.getLastD NULL) s).msg p).prev) NULL
      (l₁ ++ l₂) NULL := by
  have hnull : ∀ x ∈ l₁ ++ l₂, x ≠ NULL := by
    rintro x hx rfl
    apply h.nonnull
    simp only [List.mem_append, List.mem_cons] at hx ⊢
    tauto
  refine linked_splice h.linked h.nodup ?_ ?_
  · intro x hx
    rw [splice_next]
    refine if_congr ?_ rfl rfl
    cases l₂ with
    | nil => simp
    | cons q l₂ =>
      have hq : q ≠ NULL := hnull q (by simp)
      simp only [List.headD_cons, ne_eq, hq, not_false_eq_true, and_true, List.head?_cons,
        Option.some.injEq]
      exact eq_comm
  · intro x hx
    rw [splice_prev]
    refine if_congr ?_ rfl rfl
    by_cases hl : l₁ = []
    · simp [hl]
    · have hlast : l₁.getLastD NULL ≠ NULL :=
        hnull _ (List.mem_append_left _ (getLastD_mem hl NULL))
      rw [getLast?_eq_some_iff hl NULL]
      simp only [ne_eq, hlast, not_false_eq_true, and_true]

/-- Everything in a state but the record links and the ends of the queue. -/
def SameBut (s s' : State) : Prop :=
  (∀ x, (s'.msg x).data = (s.msg x).data ∧ (s'.msg x).size = (s.msg x).size) ∧
    s'.mem.buf = s.mem.buf ∧ s'.mem.used = s.mem.used ∧ s'.q.lock = s.q.lock

theorem splice_sameBut (prev next : Ptr) (s : State) : SameBut s (splice prev next s) := by
  refine ⟨fun x => splice_data prev next x s, ?_⟩
  unfold splice State.tryNext State.tryPrev
  split <;> split <;> exact ⟨rfl, rfl, rfl⟩

/-- Joining two messages leaves the head and the tail. -/
@[simp] theorem splice_q (prev next : Ptr) (s : State) : (splice prev next s).q = s.q := by
  simp [splice]

/-- Cutting the end off is joining it to nothing. -/
theorem setTail_tryNext_mem (s : State) (p : Ptr) :
    ((s.setTail p).tryNext p NULL).mem = (splice p NULL s).mem := by
  have hnoop : (s.tryNext p NULL).tryPrev NULL p = s.tryNext p NULL := by simp [State.tryPrev]
  rw [splice, hnoop]
  unfold State.tryNext
  split <;> rfl

/-- New ends for the queue do not matter to the records. -/
theorem lists_of_splice {s s' : State} {prev next : Ptr} {l : List Ptr}
    (hlink : Linked (fun p => ((splice prev next s).msg p).next)
      (fun p => ((splice prev next s).msg p).prev) NULL l NULL)
    (hmem : s'.mem = (splice prev next s).mem) (hlock : s'.q.lock = s.q.lock)
    (htail : s'.q.tail = l.headD NULL) (hhead : s'.q.head = l.getLastD NULL)
    (hnd : l.Nodup) (hnn : NULL ∉ l) : Lists s' l ∧ SameBut s s' := by
  have hmsg : s'.msg = (splice prev next s).msg := by
    unfold State.msg
    rw [hmem]
  obtain ⟨hdata, hbuf, hused, _⟩ := splice_sameBut prev next s
  refine ⟨⟨htail, hhead, ?_, hnd, hnn⟩, ?_, ?_, ?_, hlock⟩
  · rw [hmsg]
    exact hlink
  · intro x
    rw [hmsg]
    exact hdata x
  · rw [hmem, hbuf]
  · rw [hmem, hused]

/-- **What `unlink` does**: it takes the message out of the list, and leaves the
cursor at `NULL` (the oldest), in place (the newest) or at the older neighbour. -/
theorem unlink_spec {s : State} {l₁ l₂ : List Ptr} {m : Ptr} (h : Lists s (l₁ ++ m :: l₂)) :
    ∃ s', unlink m s = some
        ((if l₁ = [] then NULL else if l₂ = [] then m else l₁.getLastD NULL), s') ∧
      Lists s' (l₁ ++ l₂) ∧ SameBut s s' := by
  obtain ⟨hnext, hprev⟩ := h.neighbours
  have hnd : (l₁ ++ l₂).Nodup :=
    h.nodup.sublist (List.Sublist.append_left (List.sublist_cons_self m l₂) l₁)
  have hnn : NULL ∉ l₁ ++ l₂ := fun hmem => h.nonnull (by
    simp only [List.mem_append, List.mem_cons] at hmem ⊢
    tauto)
  have hlink := splice_linked h
  have hm₁ : m ∉ l₁ := fun hmem =>
    (List.nodup_append.mp h.nodup).2.2 m hmem m (List.mem_cons_self ..) rfl
  have hm₂ : m ∉ l₂ := (List.nodup_cons.mp (List.nodup_append.mp h.nodup).2.1).1
  have hheadlast : l₂ ≠ [] → s.q.head = l₂.getLastD NULL := by
    intro hne
    rw [h.head, getLastD_append (List.cons_ne_nil m l₂), List.getLastD_cons]
    cases l₂ with
    | nil => exact absurd rfl hne
    | cons q l₂ => rw [List.getLastD_cons, List.getLastD_cons]
  have hnothead : l₂ ≠ [] → ¬ m = s.q.head := fun hne heq =>
    hm₂ (by rw [heq, hheadlast hne]; exact getLastD_mem hne NULL)
  unfold unlink
  rw [hnext, hprev]
  cases l₁ with
  | nil =>
    -- the oldest message
    have htail : m = s.q.tail := by rw [h.tail]; rfl
    rw [if_pos htail, if_pos rfl]
    refine ⟨_, rfl, lists_of_splice hlink ?_ ?_ ?_ ?_ hnd hnn⟩
    · split <;> exact setTail_tryNext_mem s (l₂.headD NULL)
    · split <;> simp
    · split <;> simp [State.setTail, State.setHead]
    · by_cases hl₂ : l₂ = []
      · have hhead : m = s.q.head := by rw [h.head, hl₂]; rfl
        simp [hl₂, ← hhead, State.setTail, State.setHead]
      · rw [if_neg (by simpa [State.setTail] using hnothead hl₂)]
        simp only [State.tryNext_q, State.setTail, List.nil_append]
        exact hheadlast hl₂
  | cons o l₁ =>
    have htail : ¬ m = s.q.tail := by
      rw [h.tail]
      rintro rfl
      exact hm₁ (List.mem_cons_self ..)
    have hlast : (o :: l₁).getLastD NULL ≠ NULL := fun heq =>
      hnn (List.mem_append_left _ (heq ▸ getLastD_mem (List.cons_ne_nil o l₁) NULL))
    have htail' : s.q.tail = ((o :: l₁) ++ l₂).headD NULL := by rw [h.tail]; rfl
    rw [if_neg htail, if_neg (List.cons_ne_nil o l₁)]
    by_cases hl₂ : l₂ = []
    · -- the newest message of a longer queue
      subst hl₂
      have hhead : m = s.q.head := by
        rw [h.head, getLastD_append (List.cons_ne_nil m [])]
        rfl
      rw [if_pos hhead, if_neg hlast, if_pos rfl]
      refine ⟨_, rfl, lists_of_splice hlink ?_ rfl htail' ?_ hnd hnn⟩
      · have hnoop : s.tryNext NULL ((o :: l₁).getLastD NULL) = s := by simp [State.tryNext]
        show _ = ((s.tryNext NULL _).tryPrev _ NULL).mem
        rw [hnoop, State.tryPrev, if_pos hlast]
        rfl
      · rw [List.append_nil]
        rfl
    · -- neither end
      rw [if_neg (hnothead hl₂), if_neg hl₂]
      refine ⟨_, rfl, lists_of_splice hlink rfl ?_ ?_ ?_ hnd hnn⟩
      · simp
      · simpa using htail'
      · simp only [State.tryPrev_q, State.tryNext_q]
        rw [hheadlast hl₂, getLastD_append hl₂]

-- ---------------------------------------------------------------------------
-- The storage behind the list
-- ---------------------------------------------------------------------------

/-- Records and buffers of the queue are in use, are all different, and hold as
many bytes as they say. -/
structure Stored (s : State) (l : List Ptr) : Prop where
  used  : ∀ p ∈ l, p ∈ s.mem.used ∧ (s.msg p).data ∈ s.mem.used
  apart : (l ++ l.map fun p => (s.msg p).data).Nodup
  size  : ∀ p ∈ l, (s.msg p).size = (s.bytes p).length

/-- The bytes of a message stay with its data. -/
theorem SameBut.bytes {s s' : State} (h : SameBut s s') (p : Ptr) : s'.bytes p = s.bytes p := by
  unfold State.bytes
  rw [h.2.1, (h.1 p).1]

/-- The storage of the rest is untouched when the storage of one message goes. -/
theorem stored_remove {s s' s'' : State} {l₁ l₂ : List Ptr} {m : Ptr}
    (h : Stored s (l₁ ++ m :: l₂)) (hs : SameBut s s') (hmsg : s''.msg = s'.msg)
    (hbuf : s''.mem.buf = s'.mem.buf)
    (hused : ∀ p ∈ s.mem.used, p ≠ m → p ≠ (s.msg m).data → p ∈ s''.mem.used) :
    Stored s'' (l₁ ++ l₂) ∧ ∀ p, s''.bytes p = s.bytes p := by
  have hsub : (l₁ ++ l₂).Sublist (l₁ ++ m :: l₂) :=
    List.Sublist.append_left (List.sublist_cons_self m l₂) l₁
  have hdata : ∀ p, (s''.msg p).data = (s.msg p).data := fun p => by rw [hmsg, (hs.1 p).1]
  have hbytes : ∀ p, s''.bytes p = s.bytes p := fun p => by
    rw [← hs.bytes p]
    unfold State.bytes
    rw [hbuf, hmsg]
  have hm : m ∈ l₁ ++ m :: l₂ := by simp
  obtain ⟨hnd, hndd, hdisj⟩ := List.nodup_append.mp h.apart
  -- the two addresses that are given back are nobody else's
  have hother : ∀ p ∈ l₁ ++ l₂, p ≠ m := by
    rintro p hp rfl
    have hnd' := List.nodup_append.mp hnd
    rcases List.mem_append.mp hp with hp | hp
    · exact hnd'.2.2 p hp p (List.mem_cons_self ..) rfl
    · exact (List.nodup_cons.mp hnd'.2.1).1 hp
  have hne : ∀ p ∈ l₁ ++ l₂, p ≠ (s.msg m).data ∧ (s.msg p).data ≠ m ∧
      (s.msg p).data ≠ (s.msg m).data := by
    intro p hp
    have hp' := hsub.subset hp
    refine ⟨?_, ?_, ?_⟩
    · exact hdisj p hp' _ (List.mem_map_of_mem hm)
    · exact (hdisj m hm _ (List.mem_map_of_mem hp')).symm
    · intro heq
      exact hother p hp (List.inj_on_of_nodup_map hndd hp' hm heq)
  refine ⟨⟨?_, ?_, ?_⟩, hbytes⟩
  · intro p hp
    obtain ⟨hu, hd⟩ := h.used p (hsub.subset hp)
    obtain ⟨h₁, h₂, h₃⟩ := hne p hp
    exact ⟨hused p hu (hother p hp) h₁, by rw [hdata]; exact hused _ hd h₂ h₃⟩
  · have hmap : (l₁ ++ l₂).map (fun p => (s''.msg p).data) =
        (l₁ ++ l₂).map fun p => (s.msg p).data := List.map_congr_left fun p _ => hdata p
    rw [hmap]
    exact h.apart.sublist (hsub.append (hsub.map _))
  · intro p hp
    rw [hbytes, hmsg, (hs.1 p).2]
    exact h.size p (hsub.subset hp)

/-- **What `send_msg` does**: a new record with the bytes at the newer end. -/
theorem sendMsg_spec (K : Kalloc) (t : Tid) (data : List UInt8) {s : State} {l : List Ptr}
    (h : Lists s l) (hst : Stored s l) (hfree : s.q.lock = .UNLOCKED) :
    ∃ s', sendMsg K t data s = some s' ∧ Lists s' (l ++ [K.pick s.mem.used]) ∧
      Stored s' (l ++ [K.pick s.mem.used]) ∧ s'.bytes (K.pick s.mem.used) = data ∧
      ∀ p ∈ l, s'.bytes p = s.bytes p := by
  set m := K.pick s.mem.used with hm
  set d := K.pick (m :: s.mem.used) with hd
  have hmu : m ∉ s.mem.used := K.fresh _
  have hdu : d ∉ s.mem.used := fun hmem => K.fresh (m :: s.mem.used) (List.mem_cons_of_mem _ hmem)
  have hdm : d ≠ m := fun heq => K.fresh (m :: s.mem.used) (by
    rw [← hd, heq]
    exact List.mem_cons_self ..)
  have hml : m ∉ l := fun hmem => hmu (hst.used m hmem).1
  have hm0 : m ≠ NULL := K.ne_null _
  -- the memory once the new record is linked in
  have hkey : ∃ s', sendMsg K t data s = some s' ∧ Lists s' (l ++ [m]) ∧
      (s'.msg m).data = d ∧ (s'.msg m).size = data.length ∧
      (∀ p ∈ l, (s'.msg p).data = (s.msg p).data ∧ (s'.msg p).size = (s.msg p).size) ∧
      s'.mem.buf = Function.update s.mem.buf d data ∧ s'.mem.used = d :: m :: s.mem.used := by
    rw [sendMsg, lockQueue_free hfree, Option.map_some]
    refine ⟨_, rfl, ?_⟩
    by_cases hl : l = []
    · subst hl
      have hempty : s.q.head = NULL := h.head_null_iff.mpr rfl
      simp only [createMessage, isEmpty, hempty, ← hm, ← hd]
      have hrec : Function.update s.mem.msg m ⟨d, data.length, NULL, NULL⟩ m =
          ⟨d, data.length, NULL, NULL⟩ := Function.update_self ..
      refine ⟨⟨rfl, rfl, ⟨?_, ?_, trivial⟩, List.nodup_singleton m, ?_⟩, ?_, ?_, ?_, rfl, rfl⟩
      · exact congrArg Message.next hrec
      · exact congrArg Message.prev hrec
      · simpa using Ne.symm hm0
      · exact congrArg Message.data hrec
      · exact congrArg Message.size hrec
      · simp
    · have hne : s.q.head ≠ NULL := fun heq => hl (h.head_null_iff.mp heq)
      have hhl : s.q.head ∈ l := by rw [h.head]; exact getLastD_mem hl NULL
      have hhm : s.q.head ≠ m := fun heq => hml (heq ▸ hhl)
      have hxm : ∀ x ∈ l, x ≠ m := fun x hx heq => hml (heq ▸ hx)
      simp only [createMessage, isEmpty, beq_iff_eq, hne, ← hm, ← hd, if_false]
      refine ⟨⟨?_, ?_, ?_, ?_, ?_⟩, ?_, ?_, ?_, rfl, rfl⟩
      · show s.q.tail = _
        rw [h.tail]
        cases l with
        | nil => exact absurd rfl hl
        | cons a l => rfl
      · show m = _
        rw [getLastD_append (List.cons_ne_nil m [])]
        rfl
      · refine linked_snoc h.linked h.nodup ?_ ?_ ?_ ?_
        · simp [State.setNext_msg, h.head]
        · simp [State.setNext_msg, State.setPrev_msg, hhm.symm]
          simp [State.msg]
        · intro x hx
          simp only [State.unlockQueue_msg, State.setHead_msg, State.setNext_msg,
            State.setPrev_msg, if_neg (hxm x hx)]
          split <;> simp_all [State.msg]
        · intro x hx
          simp only [State.unlockQueue_msg, State.setHead_msg, State.setNext_msg,
            State.setPrev_msg, if_neg (hxm x hx), getLast?_eq_some_iff hl NULL, ← h.head]
          split <;> simp_all [State.msg]
      · rw [List.nodup_append]
        refine ⟨h.nodup, List.nodup_singleton m, ?_⟩
        intro x hx y hy
        rw [List.mem_singleton.mp hy]
        exact hxm x hx
      · simp only [List.mem_append, List.mem_singleton, not_or]
        exact ⟨h.nonnull, Ne.symm hm0⟩
      · simp [State.setNext_msg, State.setPrev_msg, hhm.symm]
        simp [State.msg]
      · simp [State.setNext_msg, State.setPrev_msg, hhm.symm]
        simp [State.msg]
      · intro p hp
        simp only [State.unlockQueue_msg, State.setHead_msg, State.setNext_msg,
          State.setPrev_msg, if_neg (hxm p hp)]
        split <;> simp_all [State.msg]
  obtain ⟨s', hs', hlists, hdata, hsize, hold, hbuf, hused⟩ := hkey
  have hbm : s'.bytes m = data := by
    unfold State.bytes
    rw [hdata, hbuf, Function.update_self]
  have hbp : ∀ p ∈ l, s'.bytes p = s.bytes p := by
    intro p hp
    unfold State.bytes
    rw [(hold p hp).1, hbuf, Function.update_of_ne]
    exact fun heq => hdu (heq ▸ (hst.used p hp).2)
  refine ⟨s', hs', hlists, ⟨?_, ?_, ?_⟩, hbm, hbp⟩
  · intro p hp
    rw [hused]
    rcases List.mem_append.mp hp with hp | hp
    · rw [(hold p hp).1]
      have := hst.used p hp
      simp [this.1, this.2]
    · rw [List.mem_singleton.mp hp, hdata]
      simp
  · have hmap : (l ++ [m]).map (fun p => (s'.msg p).data) =
        (l.map fun p => (s.msg p).data) ++ [d] := by
      rw [List.map_append, List.map_singleton, hdata]
      congr 1
      exact List.map_congr_left fun p hp => (hold p hp).1
    have hin : ∀ x ∈ l ++ l.map (fun p => (s.msg p).data), x ∈ s.mem.used := by
      intro x hx
      rcases List.mem_append.mp hx with hx | hx
      · exact (hst.used x hx).1
      · obtain ⟨p, hp, rfl⟩ := List.mem_map.mp hx
        exact (hst.used p hp).2
    have hperm : ((l ++ [m]) ++ ((l.map fun p => (s.msg p).data) ++ [d])).Perm
        (d :: m :: (l ++ l.map fun p => (s.msg p).data)) := by
      rw [List.append_assoc]
      have h1 : (l ++ ([m] ++ ((l.map fun p => (s.msg p).data) ++ [d]))).Perm
          (m :: (l ++ ((l.map fun p => (s.msg p).data) ++ [d]))) := List.perm_middle
      refine h1.trans ?_
      rw [← List.append_assoc]
      exact @List.perm_append_comm _ (m :: (l ++ _)) [d]
    rw [hmap, hperm.nodup_iff]
    refine List.nodup_cons.mpr ⟨?_, List.nodup_cons.mpr ⟨fun hx => hmu (hin m hx), hst.apart⟩⟩
    intro hx
    rcases List.mem_cons.mp hx with hx | hx
    · exact hdm hx
    · exact hdu (hin d hx)
  · intro p hp
    rcases List.mem_append.mp hp with hp | hp
    · rw [hbp p hp, (hold p hp).2]
      exact hst.size p hp
    · rw [List.mem_singleton.mp hp, hbm, hsize]

end Frosk.Queue
