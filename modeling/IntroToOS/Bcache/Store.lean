import IntroToOS.Bcache.Drive

/-! # The buffer cache is a store of sectors

Seen by its callers, the cache is the disk, of which a process can have sectors open, each one alone
(`Store`). The sector that `bread` returns has what the last `bwrite` has stored, whatever has been
cached, replaced and read again since, and a `bwrite` that has returned has reached the disk
(`store_of_run`). An error that the disk reports on a read breaks this: the buffer becomes valid
without having been read.
-/

namespace IntroToOS.Bcache
open Lib
set_option autoImplicit false

variable {T D : Type} [DecidableEq T] {s s' : Cache T D} {t u : T} {b c : BufId} {pc : Pc}
  {dev sector : BitVec 32} {k : Rw}

/-! ## The store -/

/-- `view` is what a process that has the sector open sees in it. -/
structure Store (T A D : Type) where
  content : A → D
  view : A → Option (T × D)

inductive Op (T A D : Type)
  | take (t : T) (a : A)
  | change (t : T) (a : A) (data : D)
  | flush (t : T) (a : A)
  | drop (t : T) (a : A)

namespace Store
variable {A : Type} [DecidableEq A]

def step (x : Store T A D) : Op T A D → Option (Store T A D)
  | .take t a =>
    if x.view a = none then some { x with view := Function.update x.view a (some (t, x.content a)) }
    else none
  | .change t a data => (x.view a).bind fun v =>
    if v.1 = t then some { x with view := Function.update x.view a (some (t, data)) } else none
  | .flush t a => (x.view a).bind fun v =>
    if v.1 = t then some { x with content := Function.update x.content a v.2 } else none
  | .drop t a => (x.view a).bind fun v =>
    if v.1 = t then some { x with view := Function.update x.view a none } else none

variable {x : Store T A D} {a : A} {data new : D}

theorem step_take (h : x.view a = none) : x.step (.take t a) =
    some { x with view := Function.update x.view a (some (t, x.content a)) } := if_pos h

theorem step_change (h : x.view a = some (t, data)) : x.step (.change t a new) =
    some { x with view := Function.update x.view a (some (t, new)) } := by
  rw [step, h]
  exact if_pos rfl

theorem step_flush (h : x.view a = some (t, data)) : x.step (.flush t a) =
    some { x with content := Function.update x.content a data } := by
  rw [step, h]
  exact if_pos rfl

theorem step_drop (h : x.view a = some (t, data)) : x.step (.drop t a) =
    some { x with view := Function.update x.view a none } := by
  rw [step, h]
  exact if_pos rfl

/-- The operation, or no operation, leads from `x` to `y`. -/
def Matches (x : Store T A D) (op : Option (Op T A D)) (y : Store T A D) : Prop :=
  op.elim (y = x) fun o => x.step o = some y

end Store

/-! ## What the callers see -/

/-- `bread` has returned the buffer, and `brelse` has not been called or has not moved it yet. -/
def opened : Option Use → Bool
  | none | some (.asked .bwrite) | some (.queued .bwrite) | some .leaving => true
  | _ => false

/-- What is seen of a sector in a buffer. -/
def seen (s : Cache T D) (a : Bool × BitVec 28) (b : BufId) : Option (T × D) :=
  if drive s b = a then
    (s.owner b).bind fun t =>
      if opened ((s.pc t).useOf b) then some (t, (s.buf b).data) else none
  else none

def abs (s : Cache T D) : Store T (Bool × BitVec 28) D where
  content := s.disk
  view a := (List.finRange NBUF).findSome? (seen s a)

/-- The operation of the store that a step of the cache is. -/
def visible (s : Cache T D) : Event T D → Option (Op T (Bool × BitVec 28) D)
  | .modify t b data => some (.change t (drive s b) data)
  | .go t =>
    match s.pc t with
    | .got b =>
      if (s.buf b).valid then some (.take t (ideAddr (s.asked t).1 (s.asked t).2)) else none
    | .wait b .bread =>
      if (s.buf b).served then some (.take t (ideAddr (s.asked t).1 (s.asked t).2)) else none
    | .append b .bwrite => if s.idequeue = [] then some (.flush t (drive s b)) else none
    | .move b => some (.drop t (drive s b))
    | _ => none
  | .handle _ =>
    match s.handler, s.idequeue with
    | .start, b :: _ =>
      if (s.buf b).dirty then (s.owner b).map fun t => .flush t (drive s b) else none
    | _, _ => none
  | _ => none

theorem findSome?_single {α β : Type*} {l : List α} {f : α → Option β} {x : α} (hx : x ∈ l)
    (h : ∀ y ∈ l, y ≠ x → f y = none) : l.findSome? f = f x := by
  cases hf : f x with
  | none =>
      refine List.findSome?_eq_none_iff.mpr fun y hy => ?_
      by_cases hyx : y = x
      · rw [hyx, hf]
      · exact h y hy hyx
  | some v =>
      obtain ⟨before, after, rfl, hnot⟩ := List.eq_append_cons_of_mem hx
      refine List.findSome?_eq_some_iff.mpr ⟨before, x, after, rfl, hf, fun y hy => ?_⟩
      exact h y (List.mem_append_left _ hy) fun heq => hnot (heq ▸ hy)

omit [DecidableEq T] in
theorem seen_of_ne {a : Bool × BitVec 28} (h : drive s b ≠ a) : seen s a b = none := if_neg h

omit [DecidableEq T] in
theorem seen_of_free {a : Bool × BitVec 28} (h : s.owner b = none) : seen s a b = none := by
  rw [seen, h]
  split <;> rfl

omit [DecidableEq T] in
theorem seen_of_owner (hown : s.owner b = some t) : seen s (drive s b) b =
    if opened ((s.pc t).useOf b) then some (t, (s.buf b).data) else none := by
  rw [seen, if_pos rfl, hown]
  rfl

omit [DecidableEq T] in
/-- Nothing of a buffer that is not open is seen. -/
theorem seen_of_closed {a : Bool × BitVec 28} (hown : s.owner b = some t)
    (hclosed : opened ((s.pc t).useOf b) = false) : seen s a b = none := by
  rw [seen, hown]
  split
  · show (if opened ((s.pc t).useOf b) = true then _ else _) = none
    rw [hclosed]
    rfl
  · rfl

omit [DecidableEq T] in
/-- A sector is seen in the one buffer that has it. -/
theorem view_eq (hnamed : Named s) (hown : s.owner b = some t) :
    (abs s).view (drive s b) = seen s (drive s b) b := by
  refine findSome?_single (List.mem_finRange b) fun c _ hc => ?_
  cases hc' : s.owner c with
  | none => exact seen_of_free hc'
  | some u =>
      refine seen_of_ne fun heq => hc ?_
      exact hnamed.drive_inj (live_of_owner hc') (live_of_owner hown) heq

omit [DecidableEq T] in
theorem abs_same (hdisk : s'.disk = s.disk) (hseen : ∀ a c, seen s' a c = seen s a c) :
    abs s' = abs s := by
  have hview : ∀ a, seen s' a = seen s a := fun a => funext (hseen a)
  simp only [abs, hdisk, hview]

omit [DecidableEq T] in
/-- What is seen of one buffer changes. -/
theorem view_update (hnamed : Named s) (hown : s.owner b = some t)
    (hdrive : drive s' b = drive s b) (hseen : ∀ a c, c ≠ b → seen s' a c = seen s a c) :
    (abs s').view = Function.update (abs s).view (drive s b) (seen s' (drive s b) b) := by
  funext a
  by_cases ha : a = drive s b
  · subst ha
    rw [Function.update_self]
    refine findSome?_single (List.mem_finRange b) fun c _ hc => ?_
    rw [hseen _ c hc]
    cases hc' : s.owner c with
    | none => exact seen_of_free hc'
    | some u =>
        refine seen_of_ne fun heq => hc ?_
        exact hnamed.drive_inj (live_of_owner hc') (live_of_owner hown) heq
  · rw [Function.update_of_ne ha]
    have hall : seen s' a = seen s a := by
      funext c
      by_cases hc : c = b
      · subst hc
        rw [seen_of_ne (hdrive ▸ fun heq => ha heq.symm), seen_of_ne fun heq => ha heq.symm]
      · exact hseen a c hc
    simp only [abs, hall]

omit [DecidableEq T] in
/-- A buffer that a step leaves alone. -/
theorem seen_same {a : Bool × BitVec 28} (hdrive : drive s' b = drive s b)
    (hdata : (s'.buf b).data = (s.buf b).data) (howner : s'.owner b = s.owner b)
    (huse : ∀ u, s.owner b = some u → opened ((s'.pc u).useOf b) = opened ((s.pc u).useOf b)) :
    seen s' a b = seen s a b := by
  rw [seen, seen, hdrive, howner, hdata]
  split
  · cases hown : s.owner b with
    | none => rfl
    | some u =>
        show (if opened ((s'.pc u).useOf b) = true then _ else _) = _
        rw [huse u hown]
        rfl
  · rfl

omit [DecidableEq T] in
theorem drive_of_contents (hbuf : (s'.buf b).contents = (s.buf b).contents) :
    drive s' b = drive s b ∧ (s'.buf b).data = (s.buf b).data :=
  ⟨congrArg₂ ideAddr (congrArg Buf.dev hbuf :) (congrArg Buf.sector hbuf :),
    (congrArg Buf.data hbuf :)⟩

theorem Moved.useOf {pc pc' : Pc} (h : Moved pc pc') : pc'.useOf b = pc.useOf b := by
  rw [Pc.useOf, h.use, Pc.useOf]

omit [DecidableEq T] in
/-- A step of a process that is about one buffer, seen in the others. -/
theorem seen_other {a : Bool × BitVec 28} (hothers : ∀ u, u ≠ t → Moved (s.pc u) (s'.pc u))
    (hpc : ∀ c x, (s.pc t).use = some (c, x) → c = b)
    (hpc' : ∀ c x, (s'.pc t).use = some (c, x) → c = b)
    (hbuf : (s'.buf c).contents = (s.buf c).contents) (howner : s'.owner c = s.owner c)
    (hc : c ≠ b) : seen s' a c = seen s a c := by
  obtain ⟨hdrive, hdata⟩ := drive_of_contents hbuf
  refine seen_same hdrive hdata howner fun u _ => ?_
  by_cases hu : u = t
  · rw [hu, useOf_of_ne hpc hc, useOf_of_ne hpc' hc]
  · rw [(hothers u hu).useOf]

omit [DecidableEq T] in
/-- A step of a process that does not show in the sectors. -/
theorem seen_stays (hothers : ∀ u, u ≠ t → Moved (s.pc u) (s'.pc u))
    (hbuf : ∀ c, drive s' c = drive s c ∧ (s'.buf c).data = (s.buf c).data)
    (howner : s'.owner = s.owner)
    (hsame : ∀ c, opened ((s'.pc t).useOf c) = opened ((s.pc t).useOf c))
    (a : Bool × BitVec 28) (c : BufId) : seen s' a c = seen s a c := by
  refine seen_same (hbuf c).1 (hbuf c).2 (congrFun howner c) fun u _ => ?_
  by_cases hu : u = t
  · rw [hu, hsame]
  · rw [(hothers u hu).useOf]

omit [DecidableEq T] in
theorem abs_view {v : Bool × BitVec 28 → Option (T × D)} (hdisk : s'.disk = s.disk)
    (hview : (abs s').view = v) : abs s' = { abs s with view := v } := by
  rw [← hview]
  simp only [abs, hdisk]

omit [DecidableEq T] in
theorem abs_content (hseen : ∀ a c, seen s' a c = seen s a c) :
    abs s' = { abs s with content := s'.disk } := by
  have hview : ∀ a, seen s' a = seen s a := fun a => funext (hseen a)
  simp only [abs, hview]

/-- `bread` returns the buffer. -/
theorem take_matches {x : Use} (hnamed : Named s) (hown : Owned s) (h : Coherent s)
    (huse : (s.pc t).use = some (b, x)) (hclosed : opened (some x) = false)
    (hreads : (s.pc t).reads = some b) (hvalid : (s.buf b).valid = true)
    (hdirty : (s.buf b).dirty = false) (hmod : s.modified b = false)
    (hothers : ∀ u, u ≠ t → Moved (s.pc u) (s'.pc u)) (hpc' : (s'.pc t).use = none)
    (hbuf : s'.buf = s.buf) (howner : s'.owner = s.owner) (hdisk : s'.disk = s.disk) :
    (abs s).step (.take t (ideAddr (s.asked t).1 (s.asked t).2)) = some (abs s') := by
  have hb := hown.has t b x huse
  have hb' : s'.owner b = some t := by rw [howner, hb]
  have hdrive : drive s' b = drive s b := by rw [drive, hbuf, drive]
  have haddr : ideAddr (s.asked t).1 (s.asked t).2 = drive s b := by
    rw [← hnamed.reads t b hreads]
    rfl
  have hview : (abs s).view (drive s b) = none := by
    rw [view_eq hnamed hb]
    exact seen_of_closed hb (by rw [useOf_eq_some.mpr huse, hclosed])
  rw [haddr, Store.step_take hview, Option.some.injEq]
  refine (abs_view hdisk ?_).symm
  rw [view_update hnamed hb hdrive fun a c hc => seen_other hothers (use_of_pc huse)
    (use_of_none hpc' b) (by rw [hbuf]) (by rw [howner]) hc]
  rw [← hdrive, seen_of_owner hb', useOf_of_none hpc', hbuf, h.clean b hvalid hdirty hmod, hdrive]
  rfl

theorem give_abs {x : Buf D} (hown : Owned s) (hpc : s.pc t = .scan dev sector)
    (hfree : (s.buf b).busy = false) : abs (give s t b x) = abs s := by
  have huse : ((give s t b x).pc t).use = some (b, .fresh) := by
    show ((s.goto t (.got b)).pc t).use = _
    rw [goto_self]
    rfl
  refine abs_same rfl fun a c => ?_
  by_cases hc : c = b
  · subst hc
    rw [seen_of_free (hown.free hfree), seen_of_closed (Function.update_self ..)]
    rw [useOf_eq_some.mpr huse]
    rfl
  · exact seen_other (fun u hu => moved_goto hu) (use_of_none (by rw [hpc]; rfl) b)
      (use_of_pc huse) (congrArg Buf.contents (Function.update_of_ne hc ..))
      (Function.update_of_ne hc ..) hc

theorem enqueue_matches (hinv : CacheInv s) (hpc : s.pc t = .append b k)
    (hothers : ∀ u, u ≠ t → Moved (s.pc u) ((enqueue s t b k).pc u)) :
    Store.Matches (abs s) (visible s (.go t)) (abs (enqueue s t b k)) := by
  have huse : (s.pc t).use = some (b, .asked k) := by rw [hpc]; rfl
  obtain ⟨hown, -, hpending, hnotin, -⟩ := hinv.owned.busy_with huse
  obtain ⟨hbuf, howner, -⟩ := enqueue_cells (s := s) (t := t) (b := b) (k := k)
  have hseen : ∀ a c, seen (enqueue s t b k) a c = seen s a c := by
    refine seen_stays hothers (fun c => by rw [drive, hbuf]; exact ⟨rfl, rfl⟩) howner fun c => ?_
    rw [enqueue_pc, goto_self, hpc]
    simp only [Pc.useOf, Pc.use, Option.bind_some]
    split
    · cases k <;> rfl
    · rfl
  have hempty : s.idequeue = [] → (enqueue s t b k).disk = (idestart s b).disk := by
    intro hqueue
    rw [enqueue_eq hnotin, if_pos hqueue]
    rfl
  have hmore : s.idequeue ≠ [] → (enqueue s t b k).disk = s.disk := by
    intro hqueue
    rw [enqueue_eq hnotin, if_neg hqueue]
    rfl
  cases k with
  | bread =>
      have hv : visible s (.go t) = none := by simp [visible, hpc]
      rw [hv]
      refine abs_same ?_ hseen
      by_cases hqueue : s.idequeue = []
      · rw [hempty hqueue, idestart, hpending.2]
        rfl
      · exact hmore hqueue
  | bwrite =>
      by_cases hqueue : s.idequeue = []
      · have hv : visible s (.go t) = some (.flush t (drive s b)) := by simp [visible, hpc, hqueue]
        have hview : (abs s).view (drive s b) = some (t, (s.buf b).data) := by
          rw [view_eq hinv.named hown, seen_of_owner hown, useOf_eq_some.mpr huse]
          rfl
        rw [hv]
        show (abs s).step (.flush t (drive s b)) = _
        rw [Store.step_flush hview, abs_content hseen, hempty hqueue, idestart,
          show (s.buf b).dirty = true from hpending]
        rfl
      · have hv : visible s (.go t) = none := by simp [visible, hpc, hqueue]
        rw [hv]
        exact abs_same (hmore hqueue) hseen

theorem move_matches (hinv : CacheInv s) (hpc : s.pc t = .move b) :
    Store.Matches (abs s) (visible s (.go t)) (abs (moveToFront s t b)) := by
  have huse : (s.pc t).use = some (b, .leaving) := by rw [hpc]; rfl
  have huse' : ((moveToFront s t b).pc t).use = none := by
    show ((s.goto t (.wake b)).pc t).use = _
    rw [goto_self]
    rfl
  have hown := hinv.owned.has t b _ huse
  have hv : visible s (.go t) = some (.drop t (drive s b)) := by simp [visible, hpc]
  have hbuf : ∀ c, ((moveToFront s t b).buf c).contents = (s.buf c).contents := by
    intro c
    show ((s.setBuf b _).buf c).contents = _
    by_cases hc : c = b
    · subst hc
      rw [show ∀ x, (s.setBuf c x).buf c = x from fun x => Function.update_self ..]
      rfl
    · rw [show ∀ x, (s.setBuf b x).buf c = s.buf c from fun x => Function.update_of_ne hc ..]
  have hdrive := (drive_of_contents (hbuf b)).1
  have hview : (abs s).view (drive s b) = some (t, (s.buf b).data) := by
    rw [view_eq hinv.named hown, seen_of_owner hown, useOf_eq_some.mpr huse]
    rfl
  rw [hv]
  show (abs s).step (.drop t (drive s b)) = _
  rw [Store.step_drop hview, Option.some.injEq]
  refine (abs_view (show (moveToFront s t b).disk = s.disk from rfl) ?_).symm
  rw [view_update hinv.named hown hdrive fun a c hc => seen_other (fun u hu => moved_goto hu)
    (use_of_pc huse) (use_of_none huse' b) (hbuf c) (Function.update_of_ne hc ..) hc,
    seen_of_free (Function.update_self ..)]

theorem Goes.matches (hgo : Goes s t s') (hinv : CacheInv s) (h : Coherent s) :
    Store.Matches (abs s) (visible s (.go t)) (abs s') := by
  have hothers : ∀ u, u ≠ t → Moved (s.pc u) (s'.pc u) := fun u hu => hgo.others hu
  have hsilent : visible s (.go t) = none → abs s' = abs s →
      Store.Matches (abs s) (visible s (.go t)) (abs s') := by
    intro hv habs
    rw [hv]
    exact habs
  cases hgo with
  | hit b dev sector hpc hfind hbusy =>
      exact hsilent (by simp [visible, hpc]) (give_abs hinv.owned hpc hbusy)
  | miss b dev sector hpc hnone hfind =>
      exact hsilent (by simp [visible, hpc])
        (give_abs hinv.owned hpc (hinv.ordered.victim hfind).1)
  | enqueue b k hpc => exact enqueue_matches hinv hpc hothers
  | move b hpc => exact move_matches hinv hpc
  | found b hpc hvalid =>
      have huse : (s.pc t).use = some (b, .fresh) := by rw [hpc]; rfl
      obtain ⟨-, -, hdirty, -, hmod⟩ := hinv.owned.busy_with huse
      have hv : visible s (.go t) = some (.take t (ideAddr (s.asked t).1 (s.asked t).2)) := by
        simp [visible, hpc, hvalid]
      rw [hv]
      exact take_matches hinv.named hinv.owned h huse rfl (by rw [hpc]; rfl) hvalid hdirty hmod
        hothers (by rw [goto_self]; rfl) rfl rfl rfl
  | done b k hpc hserved =>
      have huse : (s.pc t).use = some (b, .queued k) := by rw [hpc]; rfl
      cases k with
      | bread =>
          obtain ⟨-, -, -, hmod⟩ := hinv.owned.busy_with huse
          have hv : visible s (.go t) = some (.take t (ideAddr (s.asked t).1 (s.asked t).2)) := by
            simp [visible, hpc, hserved]
          rw [Buf.served, Bool.and_eq_true, Bool.not_eq_true'] at hserved
          rw [hv]
          exact take_matches hinv.named hinv.owned h huse rfl (by rw [hpc]; rfl) hserved.1 hserved.2
            hmod hothers (by show ((s.goto t .out).pc t).use = none; rw [goto_self]; rfl) rfl rfl rfl
      | bwrite =>
          refine hsilent (by simp [visible, hpc]) (abs_same rfl ?_)
          refine seen_stays hothers (fun _ => ⟨rfl, rfl⟩) rfl fun c => ?_
          simp only [goto_self, hpc, Pc.useOf, Pc.use, Option.bind_some]
          split <;> rfl
  | full dev sector hpc | refused b k p hpc =>
      exact hsilent (by simp [visible, hpc]) (abs_same rfl fun _ _ => rfl)
  | acquire dev sector hpc =>
      refine hsilent (by rcases hpc with hpc | hpc <;> simp [visible, hpc]) (abs_same rfl ?_)
      refine seen_stays hothers (fun _ => ⟨rfl, rfl⟩) rfl fun c => ?_
      rcases hpc with hpc | hpc <;> simp [hpc, Pc.useOf, Pc.use]
  | read b hpc =>
      refine hsilent (by simp_all [visible]) (abs_same rfl ?_)
      refine seen_stays hothers (fun _ => ⟨rfl, rfl⟩) rfl fun c => ?_
      simp only [goto_self, hpc, Pc.useOf, Pc.use, Option.bind_some]
      split <;> rfl
  | doze b k hpc hserved =>
      refine hsilent (by cases k <;> simp [visible, hpc, hserved]) (abs_same rfl ?_)
      exact seen_stays hothers (fun _ => ⟨rfl, rfl⟩) rfl fun c => by simp [hpc, Pc.useOf, Pc.use]
  | busy b dev sector hpc | checked b k hpc | lock b k hpc | relock b k hpc | remove b hpc
  | wake b hpc | unlock hpc =>
      refine hsilent (by simp [visible, hpc]) (abs_same rfl ?_)
      exact seen_stays hothers (fun _ => ⟨rfl, rfl⟩) rfl fun c => by simp [hpc, Pc.useOf, Pc.use]

omit [DecidableEq T] in
/-- A step of the interrupt handler does not show in the buffers. -/
theorem Handles.seen {ok : Bool} (hh : Handles s ok s') (hown : Owned s) (a : Bool × BitVec 28)
    (c : BufId) : seen s' a c = seen s a c := by
  have hopened : ∀ u, opened ((s'.pc u).useOf c) = opened ((s.pc u).useOf c) :=
    fun u => by rw [(hh.others u).useOf]
  cases hh with
  | serve b queue data hpc hqueue hdirty hread =>
      obtain ⟨t, k, howner, huse⟩ := hown.waits (b := b) (hqueue ▸ List.mem_cons_self)
      obtain ⟨-, -, hqueued, -⟩ := hown.busy_with huse
      by_cases hc : c = b
      · subst hc
        have hself : (s.setBuf c { s.buf c with valid := true, dirty := false, data := data }).buf c =
            { s.buf c with valid := true, dirty := false, data := data } := Function.update_self ..
        cases k with
        | bread =>
            have hclosed : opened ((s.pc t).useOf c) = false := by rw [useOf_eq_some.mpr huse]; rfl
            rw [seen_of_closed howner hclosed]
            exact seen_of_closed howner hclosed
        | bwrite =>
            have hd : (s.buf c).dirty = true := by
              rcases hqueued with ⟨-, hpending⟩ | ⟨hnotin, -⟩
              · exact hpending
              · exact absurd (hqueue ▸ List.mem_cons_self) hnotin
            refine seen_same ?_ ?_ rfl fun u _ => hopened u
            · show ideAddr ((s.setBuf c _).buf c).dev ((s.setBuf c _).buf c).sector = _
              rw [hself]
              rfl
            · exact (congrArg Buf.data hself).trans (hdirty hd)
      · have hbuf : ((s.setBuf b { s.buf b with
            valid := true, dirty := false, data := data }).buf c) = s.buf c :=
          Function.update_of_ne hc ..
        refine seen_same ?_ (congrArg Buf.data hbuf) rfl fun u _ => hopened u
        show ideAddr ((s.setBuf b _).buf c).dev ((s.setBuf b _).buf c).sector = _
        rw [hbuf]
        rfl
  | _ => exact seen_same rfl rfl rfl fun u _ => hopened u

omit [DecidableEq T] in
theorem Handles.disk {ok : Bool} (hh : Handles s ok s') (hstart : s.handler ≠ .start) :
    s'.disk = s.disk := by
  cases hh with
  | start b queue hpc => exact absurd hpc hstart
  | _ => rfl

theorem Handles.matches {ok : Bool} (hh : Handles s ok s') (hinv : CacheInv s) :
    Store.Matches (abs s) (visible s (.handle ok)) (abs s') := by
  have hseen := hh.seen hinv.owned
  cases hhandler : s.handler with
  | start =>
      cases hqueue : s.idequeue with
      | nil =>
          have hdisk : s'.disk = s.disk := by
            cases hh with
            | start b queue hpc hqueue' => cases hqueue.symm.trans hqueue'
            | _ => rfl
          rw [show visible s (.handle ok) = none by simp [visible, hhandler, hqueue]]
          exact abs_same hdisk hseen
      | cons b queue =>
          have hdisk : s'.disk = (idestart s b).disk := by
            cases hh with
            | start c queue' hpc hqueue' =>
                obtain ⟨rfl, -⟩ := List.cons.inj (hqueue.symm.trans hqueue')
                rfl
            | _ => simp_all
          obtain ⟨t, k, hown, huse⟩ := hinv.owned.waits (b := b) (hqueue ▸ List.mem_cons_self)
          obtain ⟨-, -, hqueued, -⟩ := hinv.owned.busy_with huse
          cases hd : (s.buf b).dirty with
          | false =>
              rw [show visible s (.handle ok) = none by simp [visible, hhandler, hqueue, hd]]
              refine abs_same ?_ hseen
              rw [hdisk, idestart, hd]
              rfl
          | true =>
              obtain rfl : k = .bwrite := by
                cases k with
                | bwrite => rfl
                | bread =>
                    rcases hqueued with ⟨-, hpending⟩ | ⟨hnotin, -⟩
                    · exact absurd (hpending.2.symm.trans hd) Bool.false_ne_true
                    · exact absurd (hqueue ▸ List.mem_cons_self) hnotin
              have hv : visible s (.handle ok) = some (.flush t (drive s b)) := by
                simp [visible, hhandler, hqueue, hd, hown]
              have hview : (abs s).view (drive s b) = some (t, (s.buf b).data) := by
                rw [view_eq hinv.named hown, seen_of_owner hown, useOf_eq_some.mpr huse]
                rfl
              rw [hv]
              show (abs s).step (.flush t (drive s b)) = _
              rw [Store.step_flush hview, abs_content hseen, hdisk, idestart, hd]
              rfl
  | idle | enter | run | wake b =>
      rw [show visible s (.handle ok) = none by simp [visible, hhandler]]
      exact abs_same (hh.disk (by simp [hhandler])) hseen

/-- Each step of the cache is one operation of the store, or none. -/
theorem step_matches {a : Event T D} (hinv : CacheInv s) (h : Coherent s) (hok : Promised s a)
    (hs : step s a = some s') : Store.Matches (abs s) (visible s a) (abs s') := by
  cases a with
  | bread t dev sector =>
      obtain ⟨hpc, rfl⟩ := step_bread hs
      refine abs_same (s := s) rfl (seen_stays (fun u hu => moved_goto hu) (fun _ => ⟨rfl, rfl⟩) rfl
        fun c => ?_)
      show opened (((s.goto t _).pc t).useOf c) = _
      rw [goto_self, hpc]
      rfl
  | modify t b data =>
      obtain ⟨hpc, rfl⟩ := step_modify hs
      have hnone : (s.pc t).use = none := by rw [hpc]; rfl
      have hself : (modify s b data).buf b = { s.buf b with data := data } := Function.update_self ..
      have hdrive : drive (modify s b data) b = drive s b := by rw [drive, hself, drive]
      have hown : s.owner b = some t := hok
      have hown' : (modify s b data).owner b = some t := hown
      have hview : (abs s).view (drive s b) = some (t, (s.buf b).data) := by
        rw [view_eq hinv.named hown, seen_of_owner hown, useOf_of_none hnone]
        rfl
      show (abs s).step (.change t (drive s b) data) = _
      rw [Store.step_change hview, Option.some.injEq]
      refine (abs_view (show (modify s b data).disk = s.disk from rfl) ?_).symm
      rw [view_update hinv.named hown hdrive fun a c hc => seen_other (t := t)
        (fun u _ => .inl rfl) (use_of_none hnone b) (use_of_none hnone b)
        (congrArg Buf.contents (Function.update_of_ne hc ..)) rfl hc]
      rw [← hdrive, seen_of_owner hown', show (modify s b data).pc t = s.pc t from rfl,
        useOf_of_none hnone, hself, hdrive]
      rfl
  | bwrite t b =>
      obtain ⟨hpc, rfl⟩ := step_bwrite hs
      rw [bwrite_eq hinv.owned hok hpc]
      refine abs_same (s := s) rfl (seen_stays (t := t) (fun u hu => moved_goto hu) (fun c => ?_) rfl
        fun c => ?_)
      · show ideAddr ((s.setBuf b _).buf c).dev ((s.setBuf b _).buf c).sector = _ ∧
          ((s.setBuf b _).buf c).data = _
        by_cases hc : c = b
        · subst hc
          rw [show ∀ x, (s.setBuf c x).buf c = x from fun x => Function.update_self ..]
          exact ⟨rfl, rfl⟩
        · rw [show ∀ x, (s.setBuf b x).buf c = s.buf c from fun x => Function.update_of_ne hc ..]
          exact ⟨rfl, rfl⟩
      · show opened (((s.goto t (.iderw b .bwrite)).pc t).useOf c) = _
        rw [goto_self, hpc]
        simp only [Pc.useOf, Pc.use, Option.bind_some, Option.bind_none]
        split <;> rfl
  | brelse t b =>
      obtain ⟨hpc, rfl⟩ := step_brelse hs
      rw [brelse_eq hinv.owned hok.1 hpc]
      refine abs_same (s := s) rfl (seen_stays (t := t) (fun u hu => moved_goto hu) (fun _ => ⟨rfl, rfl⟩) rfl
        fun c => ?_)
      rw [goto_self, hpc]
      simp only [Pc.useOf, Pc.use, Option.bind_some, Option.bind_none]
      split <;> rfl
  | go t => exact (step_go hs).matches hinv h
  | handle ok => exact (step_handle hs).matches hinv
  | kill t =>
      obtain rfl := step_kill hs
      refine abs_same (s := s) rfl (seen_stays (t := t) (fun u hu => moved_goto hu) (fun _ => ⟨rfl, rfl⟩) rfl
        fun c => ?_)
      rw [goto_self, (moved_killPc _).useOf]

/-! ## Runs -/

variable {data : BufId → D} {disk : Bool × BitVec 28 → D} {havedisk1 : Bool}

/-- A step of the users as they promise it, and of a disk without errors. -/
def Ok (s : Cache T D) (a : Event T D) : Prop := Promised s a ∧ NoError a

instance (s : Cache T D) (a : Event T D) : Decidable (Ok s a) := inferInstanceAs (Decidable (_ ∧ _))

structure StoreInv (s : Cache T D) : Prop where
  cache : CacheInv s
  driven : Driven s
  coherent : Coherent s

omit [DecidableEq T] in
theorem coherent_binit : Coherent (binit data disk havedisk1 : Cache T D) :=
  ⟨fun _ hvalid => (by cases hvalid), fun _ hstarted => (by cases hstarted)⟩

omit [DecidableEq T] in
theorem storeInv_binit : StoreInv (binit data disk havedisk1 : Cache T D) :=
  ⟨cacheInv_binit, driven_binit, coherent_binit⟩

theorem step_storeInv {a : Event T D} (h : StoreInv s) (hok : Ok s a) (hs : step s a = some s') :
    StoreInv s' where
  cache := step_cacheInv h.cache hok.1 hs
  driven := step_driven h.cache.owned h.driven hok.1 hs
  coherent := step_coherent h.cache h.driven h.coherent hok.1 hok.2 hs

theorem storeInv_of_run (hrun : Run step Ok (binit data disk havedisk1) s) : StoreInv s :=
  hrun.invariant storeInv_binit fun _ _ _ h hok hs => step_storeInv h hok hs

/-- The disk, with no sector open. -/
def Store.closed (disk : Bool × BitVec 28 → D) : Store T (Bool × BitVec 28) D where
  content := disk
  view _ := none

omit [DecidableEq T] in
theorem abs_binit : abs (binit data disk havedisk1 : Cache T D) = Store.closed disk := by
  have hview : ∀ a, (abs (binit data disk havedisk1 : Cache T D)).view a = none :=
    fun a => List.findSome?_eq_none_iff.mpr fun b _ => seen_of_free rfl
  rw [Store.closed, ← funext hview]
  rfl

theorem Store.run_of_matches {x y : Store T (Bool × BitVec 28) D}
    {op : Option (Op T (Bool × BitVec 28) D)} (h : Store.Matches x op y) :
    Run Store.step (fun _ _ => True) x y := by
  cases op with
  | none =>
      obtain rfl : y = x := h
      exact .refl
  | some o => exact .single o trivial h

/-- The run of the cache is a run of the store, step by step. A buffer that a process has got from
`bread` and has not changed since the last `bwrite` has what the disk has. -/
theorem store_of_run (hrun : Run step Ok (binit data disk havedisk1) s) :
    Run Store.step (fun _ _ => True) (Store.closed disk) (abs s) ∧
    (∀ a s', Ok s a → step s a = some s' → Store.Matches (abs s) (visible s a) (abs s')) ∧
    ∀ t b, s.owner b = some t → (s.pc t).useOf b = none →
      (abs s).view (drive s b) = some (t, (s.buf b).data) ∧
      (s.modified b = false → (s.buf b).data = s.disk (drive s b)) := by
  have h := storeInv_of_run hrun
  have hmatches : ∀ {u : Cache T D} {a v}, StoreInv u → Ok u a → step u a = some v →
      Store.Matches (abs u) (visible u a) (abs v) :=
    fun hu hok hs => step_matches hu.cache hu.coherent hok.1 hs
  refine ⟨?_, fun a s' hok hs => hmatches h hok hs, fun t b hown huse => ?_⟩
  · have hsim : ∃ y, Run Store.step (fun _ _ => True) (Store.closed disk) y ∧ StoreInv s ∧ y = abs s := by
      refine hrun.simulate (R := fun u y => StoreInv u ∧ y = abs u) ⟨storeInv_binit, abs_binit.symm⟩ ?_
      rintro u a v y ⟨hu, rfl⟩ hok hs
      exact ⟨abs v, Store.run_of_matches (hmatches hu hok hs), step_storeInv hu hok hs, rfl⟩
    obtain ⟨y, hy, -, rfl⟩ := hsim
    exact hy
  · obtain ⟨-, hfits⟩ := (h.cache.owned.kept b).fits t hown
    rw [huse] at hfits
    obtain ⟨hserved, -⟩ := hfits
    rw [Buf.served, Bool.and_eq_true, Bool.not_eq_true'] at hserved
    refine ⟨?_, h.coherent.clean b hserved.1 hserved.2⟩
    rw [view_eq h.cache.named hown, seen_of_owner hown, huse]
    rfl

/-- The process that has waited sees what the other one has written. -/
theorem sharedSector_store : ∃ s : Cache Bool ℕ,
    play step sharedSector (binit (fun _ => 0) (fun _ => 5) false) = some s ∧
    s.owner 0 = some true ∧ s.pc true = .out ∧ (s.buf 0).data = 42 ∧
    (∀ t b, s.owner b = some t → (s.pc t).useOf b = none →
      (abs s).view (drive s b) = some (t, (s.buf b).data) ∧
      (s.modified b = false → (s.buf b).data = s.disk (drive s b))) := by
  have hplay : (play step sharedSector (binit (fun _ => 0) (fun _ => 5) false)).map
      (fun s => (s.owner 0, s.pc true, (s.buf 0).data)) = some (some true, .out, 42) := by
    decide +kernel
  obtain ⟨s, hs, hfacts⟩ := Option.map_eq_some_iff.mp hplay
  obtain ⟨hown, hpc, hdata⟩ := by simpa only [Prod.mk.injEq] using hfacts
  exact ⟨s, hs, hown, hpc, hdata, (store_of_run (.of_playOk (by decide +kernel) hs)).2.2⟩

/-- The disk reports an error when the first process reads. -/
theorem unread_buffer : ∃ s : Cache Bool ℕ,
    Run step Promised (binit (fun _ => 0) (fun _ => 5) false) s ∧ s.owner 0 = some false ∧
    s.pc false = .out ∧ s.modified 0 = false ∧ (s.buf 0).data ≠ s.disk (drive s 0) := by
  let events : List (Event Bool ℕ) := List.flatten
    [sharedSector.take 8, List.replicate 5 (.handle false), [.go false, .go false]]
  have hplay : (play step events (binit (fun _ => 0) (fun _ => 5) false)).map
      (fun s => (s.owner 0, s.pc false, s.modified 0, (s.buf 0).data, s.disk (drive s 0))) =
        some (some false, .out, false, 0, 5) := by
    decide +kernel
  obtain ⟨s, hs, hfacts⟩ := Option.map_eq_some_iff.mp hplay
  obtain ⟨hown, hpc, hmod, hdata, hdisk⟩ := by simpa only [Prod.mk.injEq] using hfacts
  refine ⟨s, .of_playOk (by decide +kernel) hs, hown, hpc, hmod, ?_⟩
  rw [hdata, hdisk]
  decide

end IntroToOS.Bcache
