import Xv6.Kernel.Dock
import Xv6.Kernel.MessageQueue

/-!
# Where mouse messages go

`wmHandleMessage` of `kernel/window_manager.c` sends the messages of the mouse to the popup or to
the window on top, with the position of the mouse relative to a corner.  A gesture starts when the
mouse is pressed, and what it is pressed on is who the messages of the gesture are for.

The message for the press itself is made with the corner of the popup, whoever gets it, and the
start icon of the dock is sent the position on the screen.

* `wmHandleMessage_sends`: the messages of the mouse that are sent, and to whom.
* `mouse_addressed`: when they are for the right recipient and relative to its corner.
* `gestures_addressed`: runs of messages of the mouse in which they always are.
-/

namespace Xv6.Kernel.Wm

open Xv6.Verified
open Exec MessageQueue

/-- The types of the messages of the mouse. -/
def IsMouse (t : Int) : Prop :=
  t = M_MOUSE_MOVE ∨ t = M_MOUSE_DOWN ∨ t = M_MOUSE_UP ∨ t = M_MOUSE_LEFT_CLICK ∨
    t = M_MOUSE_RIGHT_CLICK ∨ t = M_MOUSE_DBCLICK

instance (t : Int) : Decidable (IsMouse t) := inferInstanceAs (Decidable (_ ∨ _))

/-- Who has a message queue. -/
inductive Recipient where
  | popup
  | window (p : Int)
  deriving DecidableEq

/-- The window of a recipient. -/
def State.wndOf (s : State) : Recipient → KernelWindow
  | .popup => s.popupwindow.wnd
  | .window p => (s.windowlist p).wnd

/-! ## Queues -/

/-- `m` is in the queue `b'` and was not yet in `b`. -/
def Appended (b b' : MsgBuf) (m : Message) : Prop :=
  ∃ k : Nat, b.cnt + k < b'.cnt ∧ cell b' (b.rear.val + k) = m

/-- The messages that are accepted. -/
def accepted (b : MsgBuf) (ms : List Message) : List Message := ms.take (MSG_BUF_SIZE - b.cnt)

section Queues

variable {b : MsgBuf} {m : Message} {ms : List Message} {i j : Nat}

theorem cell_mod : cell b (i % MSG_BUF_SIZE) = cell b i :=
  congrArg b.data (Fin.ext (by rw [Fin.val_ofNat, Fin.val_ofNat, Nat.mod_mod]))

theorem cell_dispatch (hroom : b.cnt < MSG_BUF_SIZE) (hj : j < MSG_BUF_SIZE) :
    cell (dispatchMessage b m) (b.rear.val + j) = if j = 0 then m else cell b (b.rear.val + j) := by
  have hrear := b.rear.isLt
  rw [dispatchMessage, if_neg (Nat.not_le.2 hroom), cell]
  dsimp only
  split_ifs with hzero
  · subst hzero
    rw [show Fin.ofNat MSG_BUF_SIZE (b.rear.val + 0) = b.rear from
      Fin.ext (Nat.mod_eq_of_lt hrear), Function.update_self]
  · rw [Function.update_of_ne, cell]
    intro heq
    have hval := congrArg Fin.val heq
    rw [Fin.val_ofNat] at hval
    simp only [MSG_BUF_SIZE] at *
    omega

/-- Messages that are dispatched go behind those that are there, as long as there is room. -/
theorem foldl_dispatch : (ms.foldl dispatchMessage b).cnt = b.cnt + (accepted b ms).length ∧
    ∀ j, j < MSG_BUF_SIZE → cell (ms.foldl dispatchMessage b) (b.rear.val + j) =
      (accepted b ms)[j]?.getD (cell b (b.rear.val + j)) := by
  induction ms generalizing b with
  | nil => simp [accepted]
  | cons m ms ih =>
      rw [List.foldl_cons]
      by_cases hroom : b.cnt < MSG_BUF_SIZE
      · have hcnt : (dispatchMessage b m).cnt = b.cnt + 1 := by
          rw [dispatchMessage, if_neg (Nat.not_le.2 hroom)]
        have hrear : (dispatchMessage b m).rear.val = (b.rear.val + 1) % MSG_BUF_SIZE := by
          rw [dispatchMessage, if_neg (Nat.not_le.2 hroom)]
          exact fin_val_add_one b.rear
        have hacc : accepted b (m :: ms) = m :: accepted (dispatchMessage b m) ms := by
          rw [accepted, accepted, hcnt, ← Nat.succ_pred_eq_of_pos (Nat.sub_pos_of_lt hroom),
            List.take_succ_cons]
          rfl
        obtain ⟨ihcnt, ihcell⟩ := ih (b := dispatchMessage b m)
        refine ⟨by rw [ihcnt, hcnt, hacc, List.length_cons]; omega, fun j hj => ?_⟩
        -- cell `j` behind the old end is the one before it behind the new end, around the ring
        have hcell (b' : MsgBuf) : cell b' (b.rear.val + j) =
            cell b' ((dispatchMessage b m).rear.val + (j + (MSG_BUF_SIZE - 1)) % MSG_BUF_SIZE) := by
          rw [hrear, ← cell_mod, ← cell_mod (i := _ + _ % _), Nat.add_mod (_ % _),
            Nat.mod_mod, Nat.mod_mod, ← Nat.add_mod]
          congr 1
          simp only [MSG_BUF_SIZE]
          omega
        rw [hcell, ihcell _ (Nat.mod_lt _ (by decide)), ← hcell, cell_dispatch hroom hj, hacc]
        cases j with
        | zero =>
            rw [List.getElem?_eq_none]
            · simp
            · rw [accepted, List.length_take, hcnt]
              simp only [MSG_BUF_SIZE]
              omega
        | succ j =>
            have hmod : (j + 1 + (MSG_BUF_SIZE - 1)) % MSG_BUF_SIZE = j := by
              simp only [MSG_BUF_SIZE] at *
              omega
            rw [hmod, if_neg (by omega), List.getElem?_cons_succ]
      · have hfull : dispatchMessage b m = b := if_pos (Nat.not_lt.1 hroom)
        have hnone (ms : List Message) : accepted b ms = [] := by
          rw [accepted, Nat.sub_eq_zero_of_le (Nat.not_lt.1 hroom), List.take_zero]
        rw [hfull, hnone]
        have := ih (b := b)
        rwa [hnone] at this

theorem appended_iff : Appended b (ms.foldl dispatchMessage b) m ↔ m ∈ accepted b ms := by
  obtain ⟨hcnt, hcell⟩ : (ms.foldl dispatchMessage b).cnt = _ ∧ _ := foldl_dispatch
  have hlen : (accepted b ms).length ≤ MSG_BUF_SIZE :=
    (List.length_take_le _ _).trans (Nat.sub_le _ _)
  constructor
  · rintro ⟨k, hk, rfl⟩
    have hk' : k < (accepted b ms).length := by omega
    rw [hcell k (by omega), List.getElem?_eq_getElem hk']
    exact List.getElem_mem hk'
  · intro hmem
    obtain ⟨k, hk, rfl⟩ := List.getElem_of_mem hmem
    refine ⟨k, by omega, ?_⟩
    rw [hcell k (by omega), List.getElem?_eq_getElem hk]
    rfl

end Queues

/-! ## Sending -/

/-- What of `ms` goes to `r`. -/
def mail (r : Recipient) (ms : List (Recipient × Message)) : List Message :=
  (ms.filter (·.1 = r)).map Prod.snd

/-- From `s` to `s'` the messages `ms` are dispatched, and nothing that sending depends on changes
but the list and the flags, of which none is set. -/
structure Delivers (ms : List (Recipient × Message)) (s s' : State) : Prop where
  queue : ∀ r, (s'.wndOf r).msgBuf = (mail r ms).foldl dispatchMessage (s.wndOf r).msgBuf
  position : ∀ r, (s'.wndOf r).position = (s.wndOf r).position
  caller : s'.popupwindow.caller = s.popupwindow.caller
  desktopId : s'.desktopId = s.desktopId
  mousePos : s'.mousePos = s.mousePos
  content : s.clickedOnContent = false → s'.clickedOnContent = false
  popup : s.clickedOnPopup = false → s'.clickedOnPopup = false

/-- From `s` to `s'` the messages of the mouse that are dispatched are `ms`. -/
def Sends (ms : List (Recipient × Message)) (s s' : State) : Prop :=
  ∃ all, all.filter (fun e => IsMouse e.2.msgType) = ms ∧ Delivers all s s'

section Sending

variable {s s₁ s' : State} {ms ms' : List (Recipient × Message)} {m : Message} {p : Int}
  {r : Recipient}

theorem mail_append : mail r (ms ++ ms') = mail r ms ++ mail r ms' := by
  rw [mail, List.filter_append, List.map_append]
  rfl

theorem Delivers.trans (h : Delivers ms s s₁) (h' : Delivers ms' s₁ s') :
    Delivers (ms ++ ms') s s' where
  queue r := by rw [h'.queue, h.queue, mail_append, List.foldl_append]
  position r := (h'.position r).trans (h.position r)
  caller := h'.caller.trans h.caller
  desktopId := h'.desktopId.trans h.desktopId
  mousePos := h'.mousePos.trans h.mousePos
  content hc := h'.content (h.content hc)
  popup hc := h'.popup (h.popup hc)

theorem Sends.trans (h : Sends ms s s₁) (h' : Sends ms' s₁ s') : Sends (ms ++ ms') s s' := by
  obtain ⟨all, rfl, hall⟩ := h
  obtain ⟨all', rfl, hall'⟩ := h'
  exact ⟨all ++ all', List.filter_append _ _, hall.trans hall'⟩

theorem Sends.content (h : Sends ms s s') (hc : s.clickedOnContent = false) :
    s'.clickedOnContent = false := by
  obtain ⟨all, -, hall⟩ := h
  exact hall.content hc

theorem Sends.popup (h : Sends ms s s') (hc : s.clickedOnPopup = false) :
    s'.clickedOnPopup = false := by
  obtain ⟨all, -, hall⟩ := h
  exact hall.popup hc

/-- Nothing is sent where windows and popup stay as they are. -/
theorem Sends.of_eq (hlist : s'.windowlist = s.windowlist) (hpopup : s'.popupwindow = s.popupwindow)
    (hdesk : s'.desktopId = s.desktopId) (hmouse : s'.mousePos = s.mousePos)
    (hcontent : s.clickedOnContent = false → s'.clickedOnContent = false)
    (hflag : s.clickedOnPopup = false → s'.clickedOnPopup = false) : Sends [] s s' := by
  have hwnd (r : Recipient) : s'.wndOf r = s.wndOf r := by
    cases r with
    | popup => rw [State.wndOf, hpopup, State.wndOf]
    | window p => rw [State.wndOf, hlist, State.wndOf]
  exact ⟨[], rfl, fun r => by rw [hwnd]; rfl, fun r => by rw [hwnd], by rw [hpopup], hdesk, hmouse,
    hcontent, hflag⟩

theorem Sends.refl : Sends [] s s := .of_eq rfl rfl rfl rfl id id

/-- Nothing is sent before. -/
theorem Sends.after (h : Sends ms s₁ s') (h' : Sends [] s s₁) : Sends ms s s' := h'.trans h

/-- Nothing is sent afterwards. -/
theorem Sends.then (h : Sends ms s s₁) (h' : Sends [] s₁ s') : Sends ms s s' := by
  have := h.trans h'
  rwa [List.append_nil] at this

/-- The queue of `r` gets `m`, and everything else stays. -/
theorem Sends.one (hqueue : (s'.wndOf r).msgBuf = dispatchMessage (s.wndOf r).msgBuf m)
    (hother : ∀ r', r' ≠ r → (s'.wndOf r').msgBuf = (s.wndOf r').msgBuf)
    (hposition : ∀ r, (s'.wndOf r).position = (s.wndOf r).position)
    (hcaller : s'.popupwindow.caller = s.popupwindow.caller) (hdesk : s'.desktopId = s.desktopId)
    (hmouse : s'.mousePos = s.mousePos)
    (hcontent : s.clickedOnContent = false → s'.clickedOnContent = false)
    (hflag : s.clickedOnPopup = false → s'.clickedOnPopup = false) :
    Sends (if IsMouse m.msgType then [(r, m)] else []) s s' := by
  refine ⟨[(r, m)], ?_, fun r' => ?_, hposition, hcaller, hdesk, hmouse, hcontent, hflag⟩
  · by_cases h : IsMouse m.msgType
    · rw [if_pos h, List.filter_cons_of_pos (by simpa using h), List.filter_nil]
    · rw [if_neg h, List.filter_cons_of_neg (by simpa using h), List.filter_nil]
  · by_cases h : r' = r
    · subst h
      rw [hqueue, mail, List.filter_cons_of_pos (by simp)]
      rfl
    · rw [hother r' h, mail, List.filter_cons_of_neg (by simpa using Ne.symm h)]
      rfl

theorem sends_dispatchPopup : Sends (if IsMouse m.msgType then [(.popup, m)] else []) s
    { s with popupwindow.wnd.msgBuf := dispatchMessage s.popupwindow.wnd.msgBuf m } := by
  refine .one rfl (fun r' h => ?_) (fun r => ?_) rfl rfl rfl id id
  · cases r' with
    | popup => exact absurd rfl h
    | window p => rfl
  · cases r <;> rfl

theorem sends_dispatchTo {T : List Access} :
    Sends (if IsMouse m.msgType then [(.window p, m)] else []) s
      { s with
        windowlist := Function.update s.windowlist p { s.windowlist p with
          wnd.msgBuf := dispatchMessage (s.windowlist p).wnd.msgBuf m }
        touched := T } := by
  refine .one ?_ (fun r' h => ?_) (fun r => ?_) rfl rfl rfl id id
  · simp only [State.wndOf, Function.update_self]
  · cases r' with
    | popup => rfl
    | window q =>
        have hne : q ≠ p := fun heq => h (by rw [heq])
        simp only [State.wndOf, Function.update_of_ne hne]
  · cases r with
    | popup => rfl
    | window q =>
        by_cases hq : q = p
        · subst hq
          simp only [State.wndOf, Function.update_self]
        · simp only [State.wndOf, Function.update_of_ne hq]

theorem Relinks.sends {P : Int → Prop} (h : Relinks P s s') : Sends [] s s' := by
  rw [h.same]
  exact .of_eq rfl rfl rfl rfl id id

end Sending

/-! ## What the parts of the handler send -/

/-- The recipient that is pressed on: the popup, or else the topmost window under the mouse, or else
the desktop; `l` are the windows from the bottom of the screen to the top. -/
def pressedWindow (s : State) (l : List Int) : Int :=
  (l.reverse.find? (underMouse s)).getD s.desktopId

section Parts

variable {s s' : State} {l : List Int} {junk msg : Message} {winId d dx dy mouseX t : Int}
  {T : List Access} {ms : List (Recipient × Message)}

/-- What holds of the last part holds of the whole, if stopping does not matter. -/
theorem wp_last {α β : Type} {m : M α} {f : α → M β} {Q : β → State → Prop}
    (h : ∀ a s', wp (f a) Q (fun _ _ => True) s') : wp (m >>= f) Q (fun _ _ => True) s := by
  rw [wp_bind]
  have htrue : wp m (fun _ _ => True) (fun _ _ => True) s := by
    unfold wp
    cases m.run s <;> trivial
  exact wp_imp htrue fun a s' _ => h a s'

/-- A second fact about code that does not stop. -/
theorem wp_never {α : Type} {m : M α} {Q R : α → State → Prop} {E : Stop → State → Prop}
    (h : wp m Q Never s) (h' : wp m R E s) : wp m (fun a s' => Q a s' ∧ R a s') Never s :=
  wp_mono (wp_and h h') (fun _ _ hQ => hQ) fun _ _ hE => hE.1

theorem wp_of_run_eq {α : Type} {m m' : M α} {s₁ : State} {Q : α → State → Prop}
    {E : Stop → State → Prop} (hrun : m.run s = m'.run s₁) (h : wp m' Q E s₁) : wp m Q E s := by
  unfold wp at *
  rwa [hrun]

theorem addToWindowList_tail : wp (addToWindowList winId) (fun _ s' => s'.links.tail = winId)
    (fun _ _ => True) s := by
  unfold addToWindowList
  refine wp_last fun _ _ => wp_last fun _ _ => wp_last fun _ _ => wp_last fun s₁ _ => ?_
  by_cases hne : s₁.links.tail ≠ -1
  · rw [if_pos hne]
    exact wp_last fun _ _ => by rw [setTail, wp_modify]
  · rw [if_neg hne, setTail, wp_modify]

/-- The window that is focused is on top. -/
theorem focusWindow_tail (hne : winId ≠ -1) :
    wp (focusWindow winId) (fun _ s' => s'.links.tail = winId) (fun _ _ => True) s := by
  rw [focusWindow, wp_bind, wp_get]
  by_cases htop : winId = s.links.tail
  · rw [if_pos (.inr htop), wp_pure]
    exact htop.symm
  rw [if_neg (not_or.2 ⟨hne, htop⟩)]
  by_cases hhead : winId = s.links.head
  · rw [if_pos hhead]
    exact wp_last fun _ _ => wp_last fun _ _ => wp_last fun _ _ => addToWindowList_tail
  · rw [if_neg hhead]
    exact wp_last fun _ _ => wp_last fun _ _ => wp_last fun _ _ => wp_last fun _ _ =>
      addToWindowList_tail

/-- The windows are kept, and `ms` are the messages of the mouse that are sent. -/
abbrev Sent (l : List Int) (d : Int) (T : List Access) (s : State)
    (ms : List (Recipient × Message)) (s' : State) : Prop := Safe l d T s' ∧ Sends ms s s'

theorem focusWindow_sends (h : Safe l d T s) (hwin : winId = -1 ∨ winId ∈ l) :
    wp (focusWindow winId) (fun _ s' => Sent l d T s [] s') Never s := by
  obtain ⟨l', hperm, hlist⟩ := h.listed
  refine wp_imp (wp_never (focusWindow_safe h hwin)
    (focusWindow_spec hlist (hwin.imp_right hperm.mem_iff.2))) ?_
  rintro _ s' ⟨hsafe, -, hre⟩
  exact ⟨hsafe, hre.sends⟩

theorem dispatchTo_sends (h : Safe l d T s) (hwin : winId ∈ l) :
    wp (dispatchTo winId msg) (fun _ s' => Sent l d T s
      (if IsMouse msg.msgType then [(.window winId, msg)] else []) s' ∧ s'.links = s.links)
      Never s := by
  refine wp_imp (wp_never (dispatchTo_safe h hwin) (R := fun _ s' => Sends _ s s')
    (E := Never) ?_) fun _ s' hs' => ⟨⟨hs'.1.1, hs'.2⟩, hs'.1.2⟩
  rw [dispatchTo, wp_setEntry (h.slot hwin)]
  exact sends_dispatchTo

theorem msgType_ofType : (junk.ofType t).msgType = t := rfl

theorem msgType_at {x y : Int} : (junk.at t x y).msgType = t := rfl

/-- A message to a window that is not one of the mouse. -/
theorem notify_sends (h : Safe l d T s) (hwin : winId ∈ l) (ht : ¬IsMouse t) :
    wp (dispatchTo winId (junk.ofType t)) (fun _ s' => Sent l d T s [] s' ∧ s'.links = s.links)
      Never s := by
  have hsend : wp (dispatchTo winId (junk.ofType t)) _ Never s := dispatchTo_sends h hwin
  rwa [msgType_ofType, if_neg ht] at hsend

/-- The message with the mouse relative to the corner of `r`. -/
def relative (s : State) (junk : Message) (t : Int) (r : Recipient) : Message :=
  junk.at t (s.mousePos.x - (s.wndOf r).position.xmin) (s.mousePos.y - (s.wndOf r).position.ymin)

/-- Recording an access sends nothing. -/
theorem sends_touch {a : Access} : Sends [] s { s with touched := a :: s.touched } :=
  .of_eq rfl rfl rfl rfl id id

theorem dispatchTop_sends (h : Safe l d T s) (hl : l ≠ []) (ht : IsMouse t) :
    wp (dispatchTop junk t) (fun _ s' => Sent l d T s
      [(.window s.links.tail, relative s junk t (.window s.links.tail))] s' ∧ s'.links = s.links)
      Never s := by
  have htail := h.tail_mem hl
  simp only [dispatchTop, wp_bind, wp_get, wp_getWnd (h.slot htail)]
  have hsend (m : Message) : wp (dispatchTo s.links.tail m) _ Never _ :=
    dispatchTo_sends (h.touch (a := .window _) htail) htail
  refine wp_imp (hsend _) ?_
  rintro _ s' ⟨⟨hsafe, hsends⟩, hlinks⟩
  rw [msgType_at, if_pos ht] at hsends
  exact ⟨⟨hsafe, hsends.after sends_touch⟩, hlinks⟩

/-! ### The dock -/

theorem clickTarget_sends {o : Option Int} (h : Safe l d T s) (ho : ∀ p, o = some p → p ∈ l) :
    wp (Dock.clickTarget junk o) (fun _ s' => Sent l d T s [] s') Never s := by
  cases o with
  | none =>
      rw [Dock.clickTarget, wp_pure]
      exact ⟨h, .refl⟩
  | some p =>
      have hp := ho p rfl
      have htouch := h.touch (a := .window p) hp
      simp only [Dock.clickTarget, Dock.clickWindow, wp_bind, wp_getWnd (h.slot hp), wp_ite]
      constructor
      · intro _
        refine wp_imp (notify_sends htouch hp (by decide)) ?_
        rintro _ s' ⟨⟨hsafe, hsends⟩, -⟩
        exact ⟨hsafe, hsends.after sends_touch⟩
      · intro _
        refine wp_imp (focusWindow_sends htouch (.inr hp)) ?_
        rintro _ s' ⟨hsafe, hsends⟩
        exact ⟨hsafe, hsends.after sends_touch⟩

theorem clickBars_sends (h : Safe l d T s) :
    wp (clickBars junk mouseX) (fun _ s' => Sent l d T s [] s') Never s := by
  obtain ⟨l', hperm, hlist⟩ := h.listed
  obtain ⟨T', hrun⟩ : ∃ T', (clickBars junk mouseX).run s = _ := Dock.clickBars_run hlist
  refine wp_imp (wp_never (clickBars_safe h) (wp_of_run_eq hrun
    (Q := fun _ s' => Sends [] s s') (E := Never) ?_)) fun _ s' hs' => hs'
  have h' : Safe l d (T ++ T') { s with touched := T' } :=
    ⟨⟨l', hperm, hlist⟩, h.desktop, fun a ha => .inl (List.mem_append_right T ha)⟩
  refine wp_imp (clickTarget_sends h' fun p hp => ?_) ?_
  · obtain ⟨k, hk, -, -⟩ := Dock.target_some hp
    have hmem := List.mem_of_getElem? hk
    exact hperm.mem_iff.1 (List.mem_filter.1 hmem).1
  · rintro _ s' ⟨-, hsends⟩
    exact hsends.after (.of_eq rfl rfl rfl rfl id id)

theorem clickShowDesktop_sends (h : Safe l d T s) :
    wp (clickShowDesktop junk mouseX) (fun _ s' => Sent l d T s [] s') Never s := by
  obtain ⟨l', hperm, hlist⟩ := h.listed
  have hlen : l'.length < MAX_WINDOW_CNT + 1 := by
    rw [hperm.length_eq]
    exact h.length_lt
  simp only [clickShowDesktop, wp_bind, wp_get, wp_ite, wp_pure, hlist.chain.head_eq]
  refine ⟨fun _ => ?_, fun _ => ⟨h, .refl⟩⟩
  have hchain : s.links.Chain (-1) ([] ++ l') := hlist.chain
  refine wp_imp (traverse_spec (I := fun s' => s'.links = s.links ∧ Sent l d T s [] s') hchain
    (fun p hp s₁ hs₁ => ?_) (fun p hp s₁ hs₁ => ?_) hlen ⟨rfl, h, .refl⟩) fun _ s' hs' => hs'.2
  · obtain ⟨hlinks, hsafe, hsends⟩ := hs₁
    have hp' : p ∈ l := hperm.mem_iff.1 hp
    rw [wp_getNext (hsafe.slot hp')]
    exact ⟨by rw [hlinks], hlinks, hsafe.touch (a := .link p) hp', hsends.then sends_touch⟩
  · obtain ⟨hlinks, hsafe, hsends⟩ := hs₁
    have hp' : p ∈ l := hperm.mem_iff.1 hp
    have htouch := hsafe.touch (a := .window p) hp'
    simp only [minimizeOther, wp_bind, wp_get, wp_ite, wp_pure, wp_getWnd (hsafe.slot hp')]
    refine ⟨fun _ => ⟨fun _ => ?_, fun _ => ⟨hlinks, htouch, hsends.then sends_touch⟩⟩,
      fun _ => ⟨hlinks, hsafe, hsends⟩⟩
    refine wp_imp (notify_sends htouch hp' (by decide)) ?_
    rintro _ s' ⟨⟨hsafe', hsends'⟩, hlinks'⟩
    exact ⟨hlinks'.trans hlinks, hsafe', (hsends.then sends_touch).then hsends'⟩

/-- The start icon is clicked, and its menu is not open. -/
def onStart (s : State) (msg : Message) : Prop :=
  s.mousePos.x ≤ START_ICON_WIDTH ∧ msg.msgType = M_MOUSE_LEFT_CLICK ∧
    s.popupwindow.caller ≠ s.desktopId

instance (s : State) (msg : Message) : Decidable (onStart s msg) :=
  inferInstanceAs (Decidable (_ ∧ _ ∧ _))

theorem handleDesktopDockClick_sends (h : Safe l d T s) (hdesk : d ∈ l) :
    wp (handleDesktopDockClick junk s.mousePos.x msg) (fun _ s' => Sent l d T s
      (if onStart s msg then
        [(.window d, junk.at M_MOUSE_LEFT_CLICK s.mousePos.x s.mousePos.y)] else []) s')
      Never s := by
  rw [handleDesktopDockClick, wp_bind]
  refine wp_imp (clickBars_sends h) ?_
  rintro _ s₁ ⟨h₁, hsends₁⟩
  rw [wp_bind]
  refine wp_imp (clickShowDesktop_sends h₁) ?_
  rintro _ s₂ ⟨h₂, hsends₂⟩
  have hsends := hsends₁.then hsends₂
  obtain ⟨all, -, hall⟩ := hsends
  have hiff : (s.mousePos.x ≤ START_ICON_WIDTH ∧ msg.msgType = M_MOUSE_LEFT_CLICK ∧
      s₂.popupwindow.caller ≠ s₂.desktopId) ↔ onStart s msg := by
    rw [hall.caller, hall.desktopId, onStart]
  simp only [clickStart, wp_bind, wp_get, wp_ite, wp_pure, hiff]
  constructor
  · intro hstart
    rw [if_pos hstart, h₂.desktop, hstart.2.1, hall.mousePos]
    refine wp_imp (dispatchTo_sends h₂ hdesk) ?_
    rintro _ s' ⟨⟨hsafe, hsends'⟩, -⟩
    rw [if_pos (.inr (.inr (.inr (.inl rfl))))] at hsends'
    exact ⟨hsafe, hsends'.after (hsends₁.then hsends₂)⟩
  · intro hstart
    rw [if_neg hstart]
    exact ⟨h₂, hsends₁.then hsends₂⟩

/-! ### Pressing -/

/-- The window that is pressed comes to the top. -/
theorem focusUnderMouse_sends {l' : List Int} (h : Safe l d T s) (hperm : l'.Perm l)
    (hlist : Lists s l') (hdesk : d ∈ l) :
    wp focusUnderMouse (fun _ s' => Sent l d T s [] s' ∧ s'.links.tail = pressedWindow s l') Never
      s := by
  have hmem : ∀ p ∈ [] ++ l'.reverse, p ∈ l := fun p hp => hperm.mem_iff.1 (List.mem_reverse.1 hp)
  have hlen : l'.reverse.length < MAX_WINDOW_CNT + 1 := by
    rw [List.length_reverse, hperm.length_eq]
    exact h.length_lt
  have hne (p : Int) (hp : p ∈ l) : p ≠ -1 := hlist.chain.ne (hperm.mem_iff.2 hp)
  -- A window of the list is focused, and is on top then.
  have hfocus {s₁ : State} (h₁ : Safe l d T s₁ ∧ Sends [] s s₁) (p : Int) (hp : p ∈ l) :
      wp (focusWindow p) (fun _ s' => Sent l d T s [] s' ∧ s'.links.tail = p) Never s₁ := by
    refine wp_imp (wp_never (focusWindow_sends h₁.1 (.inr hp)) (focusWindow_tail (hne p hp))) ?_
    rintro _ s' ⟨⟨hsafe, hsends⟩, htail⟩
    exact ⟨⟨hsafe, hsends.after h₁.2⟩, htail⟩
  have htail : s.links.tail = l'.reverse.headD (-1) := hlist.chain.flip.head_eq
  simp only [focusUnderMouse, wp_bind, wp_get, htail]
  have hchain : s.links.flip.Chain (-1) ([] ++ l'.reverse) := hlist.chain.flip
  refine wp_imp (search_spec (I := fun s₁ => Looks l d T s s₁ ∧ Sends [] s s₁)
    (t := underMouse s) hchain (fun p hp s₁ hs₁ => ?_) (fun p hp s₁ hs₁ => ?_) hlen
    ⟨⟨rfl, h, fun _ => rfl⟩, .refl⟩) ?_
  · obtain ⟨hlook, hsends⟩ := hs₁
    rw [wp_getPrev (hlook.safe.slot (hmem p hp))]
    refine ⟨?_, ⟨hlook.links, hlook.safe.touch (a := .link p) (hmem p hp), hlook.under⟩,
      hsends.then sends_touch⟩
    rw [hlook.links]
    rfl
  · obtain ⟨hlook, hsends⟩ := hs₁
    refine wp_imp (wp_never (isUnderMouse_safe hlook (hmem p hp))
      (R := fun _ s' => Sends [] s s') (E := Never) ?_) fun _ s' hs' => ⟨hs'.1.1, hs'.1.2, hs'.2⟩
    simp only [isUnderMouse, wp_bind, wp_get, wp_ite, wp_pure,
      wp_touch (a := .window p) (hlook.safe.slot (hmem p hp))]
    exact ⟨fun _ => hsends.then sends_touch, fun _ => hsends⟩
  · rintro p s₁ ⟨rfl, hlook, hsends⟩
    rw [wp_ite, pressedWindow]
    cases hfind : l'.reverse.find? (underMouse s) with
    | none =>
        refine ⟨fun _ => ?_, fun hnot => absurd rfl hnot⟩
        rw [h.desktop]
        exact hfocus ⟨hlook.safe, hsends⟩ d hdesk
    | some p =>
        have hp : p ∈ l := hmem p (List.mem_of_find?_eq_some hfind)
        exact ⟨fun heq => absurd heq (hne p hp), fun _ => hfocus ⟨hlook.safe, hsends⟩ p hp⟩

theorem clickTitle_sends (h : Safe l d T s) (hl : l ≠ []) :
    wp (clickTitle junk) (fun _ s' => Sent l d T s [] s' ∧ s'.links = s.links) Never s := by
  have htail := h.tail_mem hl
  have htouch := h.touch (a := .window _) htail
  have hsend (t : Int) (ht : ¬IsMouse t) : wp (dispatchTo s.links.tail (junk.ofType t))
      (fun _ s' => Sent l d T s [] s' ∧ s'.links = s.links) Never
      { s with touched := .window s.links.tail :: s.touched } := by
    refine wp_imp (notify_sends htouch htail ht) ?_
    rintro _ s' ⟨⟨hsafe, hsends⟩, hlinks⟩
    exact ⟨⟨hsafe, hsends.after sends_touch⟩, hlinks⟩
  simp only [clickTitle, wp_bind, wp_get, wp_getWnd (h.slot htail), wp_ite, wp_pure, wp_modify]
  refine ⟨fun _ => ⟨fun _ => hsend _ (by decide), fun _ => ⟨fun _ => hsend _ (by decide),
    fun _ => ?_⟩⟩, fun _ => ⟨⟨htouch, sends_touch⟩, trivial⟩⟩
  exact ⟨⟨htouch.frame rfl rfl rfl, .of_eq rfl rfl rfl rfl id id⟩, trivial⟩

/-- Is the mouse on the content of window `p`? -/
def onContent (s : State) (p : Int) : Bool :=
  let r := (s.windowlist p).wnd.position
  isInRect r.xmin r.ymin r.xmax r.ymax s.mousePos.x s.mousePos.y

/-- The message for a press on the content is made with the corner of the popup. -/
theorem clickContent_sends (h : Safe l d T s) (hl : l ≠ []) (ht : IsMouse t) :
    wp (clickContent junk t) (fun _ s' => Sent l d T { s with clickedOnContent := true }
      (if onContent s s.links.tail then [(.window s.links.tail, relative s junk t .popup)]
        else []) s' ∧ s'.links = s.links) Never s := by
  have htail := h.tail_mem hl
  have htouch := h.touch (a := .window _) htail
  simp only [clickContent, wp_bind, wp_get, wp_getWnd (h.slot htail), wp_ite, wp_pure, wp_modify]
  constructor
  · intro hin
    rw [if_pos (show onContent s s.links.tail = true from hin)]
    have hflag : Safe l d T { s with
        touched := .window s.links.tail :: s.touched, clickedOnContent := true } :=
      htouch.frame rfl rfl rfl
    have hsend (m : Message) : wp (dispatchTo s.links.tail m) _ Never _ :=
      dispatchTo_sends hflag htail
    refine wp_imp (hsend _) ?_
    rintro _ s' ⟨⟨hsafe, hsends⟩, hlinks⟩
    rw [msgType_at, if_pos ht] at hsends
    have hbefore : Sends [] { s with clickedOnContent := true } { s with
        touched := .window s.links.tail :: s.touched, clickedOnContent := true } := sends_touch
    exact ⟨⟨hsafe, hsends.after hbefore⟩, hlinks⟩
  · intro hout
    rw [if_neg (show ¬onContent s s.links.tail = true from hout)]
    exact ⟨⟨htouch, .of_eq rfl rfl rfl rfl (by simp) id⟩, trivial⟩

theorem Sends.hold (h : Sends ms s s') :
    Sends ms { s with clickedOnContent := true } { s' with clickedOnContent := true } := by
  obtain ⟨all, hfilter, hall⟩ := h
  have hwnd (s : State) (r : Recipient) : State.wndOf { s with clickedOnContent := true } r =
      s.wndOf r := by cases r <;> rfl
  refine ⟨all, hfilter, fun r => ?_, fun r => ?_, hall.caller, hall.desktopId, hall.mousePos, id,
    hall.popup⟩
  · rw [hwnd, hwnd]
    exact hall.queue r
  · rw [hwnd, hwnd]
    exact hall.position r

/-- What a press sends: nothing to the popup, and the mouse relative to the popup to the others. -/
def pressSends (s : State) (l : List Int) (junk : Message) : List (Recipient × Message) :=
  if onPopup s then []
  else if onContent s (pressedWindow s l) then
    [(.window (pressedWindow s l), relative s junk M_MOUSE_DOWN .popup)]
  else []

theorem mouseDown_popup (hpop : onPopup s = true) : wp (mouseDown junk msg)
    (fun _ s' => s' = { s with clickedOnPopup := true }) Never s := by
  simp only [mouseDown, wp_bind, wp_get, if_pos hpop, wp_modify]

theorem mouseDown_sends {l' : List Int} (h : Safe l d T s) (hperm : l'.Perm l) (hlist : Lists s l')
    (hdesk : d ∈ l) (hmsg : msg.msgType = M_MOUSE_DOWN) (hpop : ¬onPopup s = true) :
    wp (mouseDown junk msg) (fun _ s' => Sent l d T { s with clickedOnContent := true }
      (pressSends s l' junk) s' ∧ s'.links.tail = pressedWindow s l') Never s := by
  have hl : l ≠ [] := List.ne_nil_of_mem hdesk
  rw [pressSends, if_neg hpop]
  simp only [mouseDown, wp_bind, wp_get, if_neg hpop, wp_modify, dispatchPopup]
  have hclose : Sends [] s _ := sends_dispatchPopup (m := junk.ofType WM_WINDOW_CLOSE)
  refine wp_imp (focusUnderMouse_sends (h.frame rfl rfl rfl) hperm hlist hdesk) ?_
  rintro _ s₁ ⟨⟨h₁, hsends₁⟩, htail⟩
  refine wp_imp (clickTitle_sends h₁ hl) ?_
  rintro _ s₂ ⟨⟨h₂, hsends₂⟩, hlinks⟩
  have hbefore : Sends [] s s₂ := (hclose.then hsends₁).then hsends₂
  rw [hmsg]
  refine wp_imp (clickContent_sends h₂ hl (.inr (.inl rfl))) ?_
  rintro _ s' ⟨⟨hsafe, hsends⟩, hlinks'⟩
  have htop : s₂.links.tail = pressedWindow s l' := by
    rw [hlinks, htail]
    rfl
  have hhold := hbefore.hold
  obtain ⟨all, -, hall⟩ := hbefore
  have hcontent (p : Int) : onContent s₂ p = onContent s p := by
    have hpos : (s₂.windowlist p).wnd.position = _ := hall.position (.window p)
    rw [onContent, hpos, hall.mousePos]
    rfl
  have hrel : relative s₂ junk M_MOUSE_DOWN .popup = relative s junk M_MOUSE_DOWN .popup := by
    rw [relative, hall.position, hall.mousePos, relative]
  rw [htop, hcontent, hrel] at hsends
  exact ⟨⟨hsafe, hsends.after hhold⟩, by rw [hlinks', htop]⟩

/-! ### Moving, letting go and clicking -/

theorem releaseContent_sends (h : Safe l d T s) (hl : l ≠ []) (ht : IsMouse t) :
    wp (releaseContent junk t) (fun _ s' => Sent l d T s (if s.clickedOnContent then
      [(.window s.links.tail, relative s junk t (.window s.links.tail))] else []) s' ∧
      s'.clickedOnContent = false) Never s := by
  simp only [releaseContent, wp_bind, wp_get, wp_ite, wp_pure, wp_modify]
  constructor
  · intro hclick
    rw [if_pos hclick]
    refine wp_imp (dispatchTop_sends (h.frame rfl rfl rfl) hl ht) ?_
    rintro _ s' ⟨⟨hsafe, hsends⟩, -⟩
    exact ⟨⟨hsafe, hsends.after (.of_eq rfl rfl rfl rfl (fun _ => rfl) id)⟩, hsends.content rfl⟩
  · intro hclick
    rw [if_neg hclick]
    exact ⟨⟨h, .refl⟩, Bool.not_eq_true _ ▸ hclick⟩

theorem mouseUp_sends (h : Safe l d T s) (hl : l ≠ []) (ht : IsMouse msg.msgType) :
    wp (mouseUp junk msg) (fun _ s' => Sent l d T s (if s.clickedOnContent then
      [(.window s.links.tail, relative s junk msg.msgType (.window s.links.tail))] else []) s' ∧
      s'.clickedOnContent = false ∧ s'.clickedOnPopup = false) Never s := by
  have hoff : Safe l d T { s with clickedOnPopup := false } := h.frame rfl rfl rfl
  simp only [mouseUp, wp_bind, wp_modify]
  refine wp_imp (releaseContent_sends hoff hl ht) ?_
  rintro _ s' ⟨⟨hsafe, hsends⟩, hcontent⟩
  have hbefore : Sends [] s { s with clickedOnPopup := false } :=
    .of_eq rfl rfl rfl rfl id fun _ => rfl
  have hafter : Sends [] s' { s' with clickedOnTitle := false } := .of_eq rfl rfl rfl rfl id id
  have hall := (hsends.after hbefore).then hafter
  exact ⟨⟨hsafe.frame rfl rfl rfl, hall⟩, hcontent, hsends.popup rfl⟩

/-- Is the mouse on the dock, with the desktop on top? -/
def onDock (s : State) : Prop :=
  s.links.tail = s.desktopId ∧ s.mousePos.y ≥ s.screenHeight - DOCK_HEIGHT ∧
    s.mousePos.y ≤ s.screenHeight

instance (s : State) : Decidable (onDock s) := inferInstanceAs (Decidable (_ ∧ _ ∧ _))

/-- What a click on the content sends. -/
def contentSends (s : State) (junk msg : Message) : List (Recipient × Message) :=
  if onDock s then
    if onStart s msg then
      [(.window s.desktopId, junk.at M_MOUSE_LEFT_CLICK s.mousePos.x s.mousePos.y)]
    else []
  else [(.window s.links.tail, relative s junk msg.msgType (.window s.links.tail))]

/-- What a click sends.  When both flags are set, it is sent twice. -/
def clickSends (s : State) (junk msg : Message) : List (Recipient × Message) :=
  if s.clickedOnPopup then
    (.popup, relative s junk msg.msgType .popup) :: if s.clickedOnContent then
      [(.window s.links.tail, relative s junk msg.msgType (.window s.links.tail))] else []
  else if s.clickedOnContent then contentSends s junk msg else []

theorem contentClick_sends (h : Safe l d T s) (hdesk : d ∈ l) (ht : IsMouse msg.msgType) :
    wp (if s.links.tail = s.desktopId ∧ s.mousePos.y ≥ s.screenHeight - DOCK_HEIGHT ∧
        s.mousePos.y ≤ s.screenHeight then
      handleDesktopDockClick junk s.mousePos.x msg else dispatchTop junk msg.msgType)
      (fun _ s' => Sent l d T s (contentSends s junk msg) s') Never s := by
  rw [wp_ite, contentSends]
  constructor
  · intro hdock
    rw [if_pos (show onDock s from hdock), h.desktop]
    exact handleDesktopDockClick_sends h hdesk
  · intro hdock
    rw [if_neg (show ¬onDock s from hdock)]
    exact wp_imp (dispatchTop_sends h (List.ne_nil_of_mem hdesk) ht) fun _ s' hs' => hs'.1

theorem click_sends (h : Safe l d T s) (hdesk : d ∈ l) (ht : IsMouse msg.msgType) :
    wp (mouseClick junk msg >>= fun _ => mouseUp junk msg)
      (fun _ s' => Sent l d T s (clickSends s junk msg) s' ∧ s'.clickedOnContent = false ∧
        s'.clickedOnPopup = false) Never s := by
  have hl : l ≠ [] := List.ne_nil_of_mem hdesk
  simp only [mouseClick, wp_bind, wp_get, wp_ite, wp_modify, dispatchPopup, clickSends, wp_pure]
  refine ⟨fun hpop => ?_, fun hpop => ⟨fun hcontent => ?_, fun hcontent => ?_⟩⟩
  · rw [if_pos hpop]
    -- The popup gets the click, and what holds the content gets it too.
    have hoff : Sends [] s { s with clickedOnPopup := false } :=
      .of_eq rfl rfl rfl rfl id fun _ => rfl
    have hpopup : Sends _ { s with clickedOnPopup := false } _ :=
      sends_dispatchPopup (m := relative s junk msg.msgType .popup)
    rw [relative, msgType_at, if_pos ht, ← relative] at hpopup
    have hsafe : Safe l d T { s with
        clickedOnPopup := false
        popupwindow.wnd.msgBuf := dispatchMessage s.popupwindow.wnd.msgBuf
          (relative s junk msg.msgType .popup) } := h.frame rfl rfl rfl
    refine wp_imp (mouseUp_sends hsafe hl ht) ?_
    rintro _ s' ⟨⟨hsafe', hsends⟩, hfree⟩
    have hall := (hpopup.after hoff).trans hsends
    exact ⟨⟨hsafe', hall⟩, hfree⟩
  · rw [if_neg hpop, if_pos hcontent]
    have hoff : Sends [] s { s with clickedOnContent := false } :=
      .of_eq rfl rfl rfl rfl (fun _ => rfl) id
    have hsafe : Safe l d T { s with clickedOnContent := false } := h.frame rfl rfl rfl
    refine (wp_ite _ _ _).1 (wp_imp (contentClick_sends hsafe hdesk ht) ?_)
    rintro _ s₁ ⟨h₁, hsends₁⟩
    have hreleased : ¬s₁.clickedOnContent = true := by
      rw [hsends₁.content rfl]
      exact Bool.false_ne_true
    refine wp_imp (mouseUp_sends h₁ hl ht) ?_
    rintro _ s' ⟨⟨hsafe', hsends'⟩, hfree⟩
    rw [if_neg hreleased] at hsends'
    have hall := (hsends₁.after hoff).then hsends'
    exact ⟨⟨hsafe', hall⟩, hfree⟩
  · rw [if_neg hpop, if_neg hcontent]
    have hsends : wp (mouseUp junk msg) _ Never s := mouseUp_sends h hl ht
    rwa [if_neg hcontent] at hsends

/-- What moving sends. -/
def moveSends (s : State) (junk msg : Message) : List (Recipient × Message) :=
  if s.clickedOnTitle then []
  else if s.clickedOnContent then
    [(.window s.links.tail, relative { s with mousePos := moveMouse s msg } junk msg.msgType
      (.window s.links.tail))]
  else []

/-- Dragging a window fills no queue. -/
theorem moveFocusWindow_queues (h : Safe l d T s) (hl : l ≠ []) :
    wp (moveFocusWindow dx dy) (fun _ s' =>
      (∀ r, (s'.wndOf r).msgBuf = (s.wndOf r).msgBuf) ∧ s'.mousePos = s.mousePos ∧
        s'.links = s.links ∧ s'.clickedOnContent = s.clickedOnContent ∧
        s'.clickedOnPopup = s.clickedOnPopup) Never s := by
  have hslot := h.slot (h.tail_mem hl)
  simp only [moveFocusWindow, wp_bind, wp_get, wp_getWnd hslot, wp_ite, wp_pure, wp_setEntry hslot]
  refine ⟨fun _ => ⟨fun r => ?_, by simp⟩, fun _ => ⟨fun r => ?_, by simp⟩⟩
  · cases r with
    | popup => rfl
    | window p =>
        by_cases hp : p = s.links.tail
        · subst hp
          simp only [State.wndOf, Function.update_self]
        · simp only [State.wndOf, Function.update_of_ne hp]
  · cases r <;> rfl

end Parts

/-! ## What the handler sends -/

/-- The messages of the mouse that `wmHandleMessage` sends for one of them. -/
def mouseSends (s : State) (l : List Int) (junk msg : Message) : List (Recipient × Message) :=
  if msg.msgType = M_MOUSE_MOVE then moveSends s junk msg
  else if msg.msgType = M_MOUSE_DOWN then pressSends s l junk
  else if msg.msgType = M_MOUSE_UP then
    if s.clickedOnContent then
      [(.window s.links.tail, relative s junk msg.msgType (.window s.links.tail))] else []
  else clickSends s junk msg

/-- Where the mouse is when they are sent. -/
def mouseAfter (s : State) (msg : Message) : Point :=
  if msg.msgType = M_MOUSE_MOVE then moveMouse s msg else s.mousePos

/-- The messages of the mouse that are sent are `ms`.  If there are any, no window has moved. -/
structure Outcome (ms : List (Recipient × Message)) (mouse : Point) (s s' : State) : Prop where
  queue : ∃ all : List (Recipient × Message), all.filter (fun e => IsMouse e.2.msgType) = ms ∧
    ∀ r, (s'.wndOf r).msgBuf = (mail r all).foldl dispatchMessage (s.wndOf r).msgBuf
  position : ms ≠ [] → ∀ r, (s'.wndOf r).position = (s.wndOf r).position
  mousePos : s'.mousePos = mouse

section Handler

variable {s s₁ s' : State} {l : List Int} {junk msg : Message} {ms : List (Recipient × Message)}

theorem Sends.outcome (h : Sends ms s₁ s') (hwnd : ∀ r, s₁.wndOf r = s.wndOf r) :
    Outcome ms s₁.mousePos s s' := by
  obtain ⟨all, hfilter, hall⟩ := h
  exact ⟨⟨all, hfilter, fun r => by rw [hall.queue, hwnd]⟩,
    fun _ r => by rw [hall.position, hwnd], hall.mousePos⟩

/-- What is held after a message: what was held before, or what is pressed, or nothing. -/
def Held (s : State) (l : List Int) (msg : Message) (s' : State) : Prop :=
  if msg.msgType = M_MOUSE_MOVE then
    s'.links = s.links ∧ (s.clickedOnContent = false → s'.clickedOnContent = false) ∧
      (s.clickedOnPopup = false → s'.clickedOnPopup = false)
  else if msg.msgType = M_MOUSE_DOWN then
    if onPopup s then s'.clickedOnContent = s.clickedOnContent
    else s'.links.tail = pressedWindow s l ∧
      (s.clickedOnPopup = false → s'.clickedOnPopup = false)
  else s'.clickedOnContent = false ∧ s'.clickedOnPopup = false

/-- Which messages of the mouse are sent for a message of the mouse, and to whom. -/
theorem wmHandleMessage_sends (junk : Message) (h : Lists s l) (hdesk : s.desktopId ∈ l)
    (hmsg : IsMouse msg.msgType) : wp (wmHandleMessage junk msg) (fun _ s' =>
      Outcome (mouseSends s l junk msg) (mouseAfter s msg) s s' ∧ Held s l msg s' ∧
      Safe l s.desktopId s.touched s') Never s := by
  have hsafe : Safe l s.desktopId s.touched s := ⟨⟨l, .refl l, h⟩, rfl, fun _ ha => .inl ha⟩
  have hl : l ≠ [] := List.ne_nil_of_mem hdesk
  unfold wmHandleMessage mouseSends mouseAfter Held
  by_cases hmove : msg.msgType = M_MOUSE_MOVE
  · simp only [if_pos hmove, moveSends]
    have hmoved : Safe l s.desktopId s.touched
        { s with lastMousePos := s.mousePos, mousePos := moveMouse s msg } :=
      hsafe.frame rfl rfl rfl
    simp only [mouseMove, wp_bind, wp_get, wp_ite, wp_pure, wp_modify]
    refine ⟨fun htitle => ?_, fun htitle => ⟨fun hcontent => ?_, fun hcontent => ?_⟩⟩
    · rw [if_pos htitle]
      refine wp_imp (wp_never (moveFocusWindow_safe hmoved hl)
        (moveFocusWindow_queues hmoved hl)) ?_
      rintro _ s' ⟨hsafe', hqueue, hmouse, hlinks, hc, hp⟩
      exact ⟨⟨⟨[], rfl, fun r => (hqueue r).trans (by cases r <;> rfl)⟩,
        fun hne => absurd rfl hne, hmouse⟩, ⟨hlinks, hc.trans, hp.trans⟩, hsafe'⟩
    · rw [if_neg htitle, if_pos hcontent]
      refine wp_imp (dispatchTop_sends hmoved hl hmsg) ?_
      rintro _ s' ⟨⟨hsafe', hsends⟩, hlinks⟩
      exact ⟨hsends.outcome fun r => by cases r <;> rfl, ⟨hlinks, hsends.content, hsends.popup⟩,
        hsafe'⟩
    · rw [if_neg htitle, if_neg hcontent]
      exact ⟨⟨⟨[], rfl, fun r => by cases r <;> rfl⟩, fun hne => absurd rfl hne, rfl⟩,
        ⟨trivial, id, id⟩, hmoved⟩
  simp only [if_neg hmove]
  by_cases hdown : msg.msgType = M_MOUSE_DOWN
  · simp only [if_pos hdown]
    by_cases hpop : onPopup s = true
    · simp only [pressSends, if_pos hpop]
      refine wp_imp (mouseDown_popup hpop) ?_
      rintro _ s' rfl
      exact ⟨⟨⟨[], rfl, fun r => by cases r <;> rfl⟩, fun hne => absurd rfl hne, rfl⟩, rfl,
        hsafe.frame rfl rfl rfl⟩
    · simp only [if_neg hpop]
      refine wp_imp (mouseDown_sends hsafe (.refl l) h hdesk hdown hpop) ?_
      rintro _ s' ⟨⟨hsafe', hsends⟩, htail⟩
      exact ⟨hsends.outcome fun r => by cases r <;> rfl, ⟨htail, hsends.popup⟩, hsafe'⟩
  simp only [if_neg hdown]
  by_cases hup : msg.msgType = M_MOUSE_UP
  · have hnot : ¬(msg.msgType = M_MOUSE_LEFT_CLICK ∨ msg.msgType = M_MOUSE_RIGHT_CLICK ∨
        msg.msgType = M_MOUSE_DBCLICK) := by
      rw [hup]
      decide
    simp only [if_neg hnot, if_pos hup]
    refine wp_imp (mouseUp_sends hsafe hl hmsg) ?_
    rintro _ s' ⟨⟨hsafe', hsends⟩, hfree⟩
    exact ⟨hsends.outcome fun _ => rfl, hfree, hsafe'⟩
  · have hclick : msg.msgType = M_MOUSE_LEFT_CLICK ∨ msg.msgType = M_MOUSE_RIGHT_CLICK ∨
        msg.msgType = M_MOUSE_DBCLICK :=
      ((hmsg.resolve_left hmove).resolve_left hdown).resolve_left hup
    simp only [if_pos hclick, if_neg hup]
    refine wp_imp (click_sends hsafe hdesk hmsg) ?_
    rintro _ s' ⟨⟨hsafe', hsends⟩, hfree⟩
    exact ⟨hsends.outcome fun _ => rfl, hfree, hsafe'⟩

end Handler

/-! ## Whom they are for -/

/-- What is pressed: the popup, or else the topmost window under the mouse, or else the desktop. -/
def pressed (s : State) (l : List Int) : Recipient :=
  if onPopup s then .popup else .window (pressedWindow s l)

/-- Whom a message of the mouse is for: what it presses, or else what `o` is, the recipient that was
pressed last. -/
def gestureTarget (s : State) (l : List Int) (o : Recipient) (msg : Message) : Recipient :=
  if msg.msgType = M_MOUSE_DOWN then pressed s l else o

/-- Every message of the mouse that got into a queue between `s` and `s'` is for `r₀`, and has the
position of the mouse relative to the corner of the one who gets it. -/
def Addressed (s s' : State) (r₀ : Recipient) : Prop :=
  ∀ r m, Appended (s.wndOf r).msgBuf (s'.wndOf r).msgBuf m → IsMouse m.msgType →
    r = r₀ ∧ m.params 0 = s'.mousePos.x - (s'.wndOf r).position.xmin ∧
      m.params 1 = s'.mousePos.y - (s'.wndOf r).position.ymin

/-- Two recipients have the same corner. -/
def SameCorner (s : State) (r r' : Recipient) : Prop :=
  (s.wndOf r).position.xmin = (s.wndOf r').position.xmin ∧
    (s.wndOf r).position.ymin = (s.wndOf r').position.ymin

/-- The corner of the recipient is that of the screen. -/
def AtOrigin (s : State) (r : Recipient) : Prop :=
  (s.wndOf r).position.xmin = 0 ∧ (s.wndOf r).position.ymin = 0

/-- What the handler relies on, when `o` was pressed last. -/
def Meets (s : State) (l : List Int) (o : Recipient) (msg : Message) : Prop :=
  if msg.msgType = M_MOUSE_MOVE then
    ¬s.clickedOnTitle → s.clickedOnContent → o = .window s.links.tail
  else if msg.msgType = M_MOUSE_DOWN then
    ¬onPopup s → onContent s (pressedWindow s l) →
      SameCorner s .popup (.window (pressedWindow s l))
  else if msg.msgType = M_MOUSE_UP then s.clickedOnContent → o = .window s.links.tail
  else
    (s.clickedOnPopup → o = .popup ∧ ¬s.clickedOnContent) ∧
    (¬s.clickedOnPopup → s.clickedOnContent → if onDock s then
        onStart s msg → o = .window s.desktopId ∧ AtOrigin s (.window s.desktopId)
      else o = .window s.links.tail)

/-- A message for `r₀` with the mouse relative to its corner. -/
def RightFor (s : State) (mouse : Point) (r₀ : Recipient) (e : Recipient × Message) : Prop :=
  e.1 = r₀ ∧ e.2.params 0 = mouse.x - (s.wndOf e.1).position.xmin ∧
    e.2.params 1 = mouse.y - (s.wndOf e.1).position.ymin

section Targets

variable {s s' : State} {l : List Int} {o r r' r₀ : Recipient} {junk msg : Message} {t : Int}
  {ms : List (Recipient × Message)} {mouse : Point}

theorem params_at_zero {x y : Int} : (junk.at t x y).params 0 = x := by
  simp [Message.at]

theorem params_at_one {x y : Int} : (junk.at t x y).params 1 = y := by
  simp [Message.at]

theorem rightFor_relative : RightFor s s.mousePos r₀ (r, relative s junk t r') ↔
    r = r₀ ∧ SameCorner s r' r := by
  unfold RightFor relative SameCorner
  rw [params_at_zero, params_at_one]
  dsimp only
  constructor
  · rintro ⟨h, hx, hy⟩
    exact ⟨h, by omega, by omega⟩
  · rintro ⟨h, hx, hy⟩
    exact ⟨h, by omega, by omega⟩

theorem rightFor_self : RightFor s s.mousePos r₀ (r, relative s junk t r) ↔ r = r₀ := by
  rw [rightFor_relative]
  exact and_iff_left ⟨rfl, rfl⟩

theorem rightFor_if_self {c : Prop} [Decidable c] :
    (∀ e ∈ (if c then [(r, relative s junk t r)] else []), RightFor s s.mousePos r₀ e) ↔
      (c → r = r₀) := by
  by_cases hc : c
  · rw [if_pos hc, List.forall_mem_singleton, rightFor_self]
    exact ⟨fun h _ => h, fun h => h hc⟩
  · simp [hc]

theorem rightFor_congr {e : Recipient × Message} (h : ∀ r, s'.wndOf r = s.wndOf r) :
    RightFor s' mouse r₀ e ↔ RightFor s mouse r₀ e := by
  unfold RightFor
  rw [h]

theorem move_right_iff : (∀ e ∈ moveSends s junk msg, RightFor s (moveMouse s msg) o e) ↔
    (¬s.clickedOnTitle → s.clickedOnContent → o = .window s.links.tail) := by
  rw [moveSends]
  by_cases htitle : s.clickedOnTitle = true
  · simp [htitle]
  · have hwnd (r : Recipient) :
        State.wndOf { s with mousePos := moveMouse s msg } r = s.wndOf r := by cases r <;> rfl
    rw [if_neg htitle]
    simp only [← rightFor_congr hwnd]
    refine rightFor_if_self.trans ?_
    exact ⟨fun h _ hc => (h hc).symm, fun h hc => (h htitle hc).symm⟩

theorem press_right_iff : (∀ e ∈ pressSends s l junk, RightFor s s.mousePos (pressed s l) e) ↔
    (¬onPopup s → onContent s (pressedWindow s l) →
      SameCorner s .popup (.window (pressedWindow s l))) := by
  rw [pressSends, pressed]
  by_cases hpop : onPopup s = true
  · simp [hpop]
  · rw [if_neg hpop, if_neg hpop]
    by_cases hin : onContent s (pressedWindow s l) = true
    · rw [if_pos hin, List.forall_mem_singleton, rightFor_relative]
      exact ⟨fun h _ _ => h.2, fun h => ⟨rfl, h hpop hin⟩⟩
    · simp [hpop, hin]

theorem content_right_iff : (∀ e ∈ contentSends s junk msg, RightFor s s.mousePos o e) ↔
    if onDock s then onStart s msg → o = .window s.desktopId ∧ AtOrigin s (.window s.desktopId)
    else o = .window s.links.tail := by
  rw [contentSends]
  by_cases hdock : onDock s
  · rw [if_pos hdock, if_pos hdock]
    by_cases hstart : onStart s msg
    · rw [if_pos hstart, List.forall_mem_singleton, RightFor, params_at_zero, params_at_one,
        AtOrigin]
      dsimp only
      constructor
      · rintro ⟨rfl, hx, hy⟩ _
        exact ⟨rfl, by omega, by omega⟩
      · intro h
        obtain ⟨rfl, hx, hy⟩ := h hstart
        exact ⟨rfl, by omega, by omega⟩
    · simp [hstart]
  · rw [if_neg hdock, if_neg hdock, List.forall_mem_singleton, rightFor_self, eq_comm]

theorem click_right_iff : (∀ e ∈ clickSends s junk msg, RightFor s s.mousePos o e) ↔
    (s.clickedOnPopup → o = .popup ∧ ¬s.clickedOnContent) ∧
    (¬s.clickedOnPopup → s.clickedOnContent → if onDock s then
        onStart s msg → o = .window s.desktopId ∧ AtOrigin s (.window s.desktopId)
      else o = .window s.links.tail) := by
  rw [clickSends]
  by_cases hpop : s.clickedOnPopup = true
  · rw [if_pos hpop, List.forall_mem_cons, rightFor_self, rightFor_if_self]
    simp only [hpop, true_imp_iff, not_true_eq_false, false_imp_iff, and_true]
    constructor
    · rintro ⟨rfl, hwin⟩
      exact ⟨rfl, fun hc => nomatch hwin hc⟩
    · rintro ⟨rfl, hfree⟩
      exact ⟨rfl, fun hc => absurd hc hfree⟩
  · rw [if_neg hpop]
    by_cases hc : s.clickedOnContent = true
    · rw [if_pos hc, content_right_iff]
      exact ⟨fun h => ⟨fun hp => absurd hp hpop, fun _ _ => h⟩, fun h => h.2 hpop hc⟩
    · simp [hpop, hc]

/-- The condition says that everything sent is right. -/
theorem meets_iff (junk : Message) : Meets s l o msg ↔ ∀ e ∈ mouseSends s l junk msg,
    RightFor s (mouseAfter s msg) (gestureTarget s l o msg) e := by
  unfold Meets mouseSends mouseAfter gestureTarget
  by_cases hmove : msg.msgType = M_MOUSE_MOVE
  · have hdown : msg.msgType ≠ M_MOUSE_DOWN := by
      rw [hmove]
      decide
    simp only [if_pos hmove, if_neg hdown, move_right_iff]
  by_cases hdown : msg.msgType = M_MOUSE_DOWN
  · simp only [if_neg hmove, if_pos hdown, press_right_iff]
  by_cases hup : msg.msgType = M_MOUSE_UP
  · simp only [if_neg hmove, if_neg hdown, if_pos hup, rightFor_if_self, eq_comm]
  · simp only [if_neg hmove, if_neg hdown, if_neg hup, click_right_iff]

/-! ## What is appended -/

/-- Nothing is lost. -/
theorem accepted_eq {b : MsgBuf} {ms : List Message}
    (hfull : (ms.foldl dispatchMessage b).cnt < MSG_BUF_SIZE) : accepted b ms = ms := by
  obtain ⟨hcnt, -⟩ : (ms.foldl dispatchMessage b).cnt = _ ∧ _ := foldl_dispatch
  rw [hcnt, accepted, List.length_take] at hfull
  rw [accepted, List.take_of_length_le]
  omega

theorem mem_mail {m : Message} : m ∈ mail r ms ↔ (r, m) ∈ ms := by
  rw [mail, List.mem_map]
  constructor
  · rintro ⟨⟨r', m'⟩, hmem, rfl⟩
    obtain ⟨hall, hr⟩ := List.mem_filter.1 hmem
    obtain rfl : r' = r := by simpa using hr
    exact hall
  · intro hmem
    exact ⟨(r, m), List.mem_filter.2 ⟨hmem, by simp⟩, rfl⟩

/-- What is appended is among what is sent; all of it, if no queue is full afterwards. -/
theorem Outcome.appended (h : Outcome ms mouse s s') :
    (∀ r m, Appended (s.wndOf r).msgBuf (s'.wndOf r).msgBuf m → IsMouse m.msgType → (r, m) ∈ ms) ∧
    ((∀ r, (s'.wndOf r).msgBuf.cnt < MSG_BUF_SIZE) → ∀ r m, (r, m) ∈ ms →
      Appended (s.wndOf r).msgBuf (s'.wndOf r).msgBuf m ∧ IsMouse m.msgType) := by
  obtain ⟨all, rfl, hqueue⟩ := h.queue
  constructor
  · intro r m happ hm
    rw [hqueue, appended_iff] at happ
    have hall := mem_mail.1 (List.mem_of_mem_take happ)
    exact List.mem_filter.2 ⟨hall, by simpa using hm⟩
  · intro hfull r m hmem
    obtain ⟨hall, hm⟩ := List.mem_filter.1 hmem
    have hr := hfull r
    rw [hqueue] at hr ⊢
    rw [appended_iff, accepted_eq hr]
    exact ⟨mem_mail.2 hall, by simpa using hm⟩

theorem Outcome.rightFor (h : Outcome ms mouse s s') {e : Recipient × Message} (he : e ∈ ms) :
    RightFor s mouse r₀ e ↔ RightFor s' s'.mousePos r₀ e := by
  unfold RightFor
  rw [h.position (List.ne_nil_of_mem he), h.mousePos]

end Targets

/-- For every state with a desktop, every message of the mouse, and whatever was pressed last: when
what the handler sends is for the right recipient and in its coordinates. -/
theorem mouse_addressed {s : State} {l : List Int} {msg : Message} (h : Lists s l)
    (hdesk : s.desktopId ∈ l) (hmsg : IsMouse msg.msgType) (junk : Message) (o : Recipient) :
    ∃ s', (wmHandleMessage junk msg).run s = .ok () s' ∧
      (Meets s l o msg → Addressed s s' (gestureTarget s l o msg)) ∧
      ((∀ r, (s'.wndOf r).msgBuf.cnt < MSG_BUF_SIZE) →
        Addressed s s' (gestureTarget s l o msg) → Meets s l o msg) := by
  obtain ⟨_, s', hrun, hout, -⟩ := returns_of_wp
    (wmHandleMessage_sends junk h hdesk hmsg)
  obtain ⟨hsub, hall⟩ := hout.appended
  refine ⟨s', hrun, fun hmeets r m happ hm => ?_, fun hroom haddr => ?_⟩
  · have hmem := hsub r m happ hm
    exact (hout.rightFor hmem).1 ((meets_iff _).1 hmeets _ hmem)
  · refine (meets_iff junk).2 fun e hmem => (hout.rightFor hmem).2 ?_
    obtain ⟨happ, hm⟩ := hall hroom e.1 e.2 hmem
    exact haddr e.1 e.2 happ hm

/-! ## Gestures -/

/-- A state, and the recipient that was pressed last. -/
structure Gesture where
  wm : State
  last : Recipient

/-- The windows from the bottom of the screen to the top. -/
def windowsOf (s : State) : List Int :=
  (Links.walk s.links.next (-1) (MAX_WINDOW_CNT + 1) s.links.head).getD []

/-- A message of the mouse; the first of the two is what the local message held. -/
def Gesture.handle (g : Gesture) (a : Message × Message) : Option Gesture :=
  match (wmHandleMessage a.1 a.2).run g.wm with
  | .ok _ wm => some ⟨wm, gestureTarget g.wm (windowsOf g.wm) g.last a.2⟩
  | .fail _ _ => none

/-- The message is one of the mouse.  It presses only when nothing is held, and what it presses has
the corner of the popup; it opens the start menu only if the desktop is at the corner of the
screen. -/
structure Clean (g : Gesture) (a : Message × Message) : Prop where
  mouse : IsMouse a.2.msgType
  free : a.2.msgType = M_MOUSE_DOWN → g.wm.clickedOnContent = false ∧ g.wm.clickedOnPopup = false
  corner : a.2.msgType = M_MOUSE_DOWN → ¬onPopup g.wm →
    onContent g.wm (pressedWindow g.wm (windowsOf g.wm)) →
      SameCorner g.wm .popup (.window (pressedWindow g.wm (windowsOf g.wm)))
  start : onDock g.wm → onStart g.wm a.2 → AtOrigin g.wm (.window g.wm.desktopId)

/-- What is held is what was pressed last, and no other window has come on top of it. -/
structure Holding (g : Gesture) : Prop where
  listed : ∃ l, Lists g.wm l ∧ g.wm.desktopId ∈ l
  content : g.wm.clickedOnContent → g.last = .window g.wm.links.tail ∧ g.wm.clickedOnPopup = false
  popup : g.wm.clickedOnPopup → g.last = .popup

section Gestures

variable {s : State} {l : List Int} {g g₀ : Gesture} {a : Message × Message}

theorem windowsOf_eq (h : Lists s l) : windowsOf s = l := by
  rw [windowsOf, h.chain.walk_next (length_lt_of_lists h)]
  rfl

theorem Holding.meets (h : Holding g) (hclean : Clean g a) :
    Meets g.wm (windowsOf g.wm) g.last a.2 := by
  have hpop (hp : g.wm.clickedOnPopup = true) :
      g.last = .popup ∧ ¬g.wm.clickedOnContent = true := by
    refine ⟨h.popup hp, fun hc => ?_⟩
    rw [(h.content hc).2] at hp
    cases hp
  unfold Meets
  split_ifs with hmove hdown hup hdock
  · exact fun _ hc => (h.content hc).1
  · exact hclean.corner hdown
  · exact fun hc => (h.content hc).1
  · refine ⟨hpop, fun _ hc hstart => ⟨?_, hclean.start hdock hstart⟩⟩
    rw [← hdock.1]
    exact (h.content hc).1
  · exact ⟨hpop, fun _ hc => (h.content hc).1⟩

/-- The gesture goes on. -/
theorem Holding.after {s' : State} (h : Holding g) (hclean : Clean g a)
    (hheld : Held g.wm l a.2 s') (hlist' : ∃ l', Lists s' l' ∧ s'.desktopId ∈ l') :
    Holding ⟨s', gestureTarget g.wm l g.last a.2⟩ := by
  unfold Held at hheld
  unfold gestureTarget
  split_ifs at hheld with hmove hdown hpop
  · obtain ⟨hlinks, hc, hp⟩ := hheld
    have hdown : a.2.msgType ≠ M_MOUSE_DOWN := by
      rw [hmove]
      decide
    rw [if_neg hdown]
    refine ⟨hlist', fun hc' => ?_, fun hp' => h.popup ?_⟩
    · have hcontent : g.wm.clickedOnContent = true := by
        by_contra hnot
        rw [hc (Bool.eq_false_iff.2 hnot)] at hc'
        cases hc'
      obtain ⟨hlast, hfree⟩ := h.content hcontent
      refine ⟨?_, hp hfree⟩
      rw [hlast]
      dsimp only
      rw [hlinks]
    · by_contra hnot
      rw [hp (Bool.eq_false_iff.2 hnot)] at hp'
      cases hp'
  · rw [if_pos hdown, pressed, if_pos hpop]
    refine ⟨hlist', fun hc' => ?_, fun _ => rfl⟩
    rw [show s'.clickedOnContent = _ from hheld, (hclean.free hdown).1] at hc'
    cases hc'
  · obtain ⟨htail, hp⟩ := hheld
    have hfree := hp (hclean.free hdown).2
    rw [if_pos hdown, pressed, if_neg hpop, ← htail]
    refine ⟨hlist', fun _ => ⟨rfl, hfree⟩, fun hp' => ?_⟩
    rw [hfree] at hp'
    cases hp'
  · obtain ⟨hc, hp⟩ := hheld
    refine ⟨hlist', fun hc' => ?_, fun hp' => ?_⟩
    · rw [hc] at hc'
      cases hc'
    · rw [hp] at hp'
      cases hp'

/-- One message: it is addressed right, and the gesture goes on. -/
theorem Holding.handle (h : Holding g) (hclean : Clean g a) :
    ∃ g', g.handle a = some g' ∧ Holding g' ∧ Addressed g.wm g'.wm g'.last := by
  obtain ⟨l, hlist, hdesk⟩ := h.listed
  obtain ⟨_, s', hrun, hout, hheld, hsafe⟩ := returns_of_wp
    (wmHandleMessage_sends a.1 hlist hdesk hclean.mouse)
  have hmeets := h.meets hclean
  rw [windowsOf_eq hlist] at hmeets
  refine ⟨⟨s', gestureTarget g.wm l g.last a.2⟩, ?_, h.after hclean hheld ?_, ?_⟩
  · rw [Gesture.handle, hrun, windowsOf_eq hlist]
  · obtain ⟨l', hperm, hlist'⟩ := hsafe.listed
    refine ⟨l', hlist', ?_⟩
    rw [hsafe.desktop]
    exact hperm.mem_iff.2 hdesk
  · intro r m happ hm
    have hmem := hout.appended.1 r m happ hm
    exact (hout.rightFor hmem).1 ((meets_iff _).1 hmeets _ hmem)

/-- In every run of messages of the mouse that starts with nothing held, every message is addressed
right. -/
theorem gestures_addressed (h : Lists s l) (hdesk : s.desktopId ∈ l)
    (hcontent : s.clickedOnContent = false) (hpopup : s.clickedOnPopup = false) (o : Recipient)
    (hrun : Reaches Gesture.handle Clean ⟨s, o⟩ g) (hclean : Clean g a) :
    ∃ g', g.handle a = some g' ∧ Addressed g.wm g'.wm g'.last := by
  have hstart : Holding ⟨s, o⟩ := by
    refine ⟨⟨l, h, hdesk⟩, fun hc => ?_, fun hp => ?_⟩
    · exact absurd (hcontent.symm.trans hc) Bool.false_ne_true
    · exact absurd (hpopup.symm.trans hp) Bool.false_ne_true
  have hhold : Holding g := hrun.inv (fun g a g' hg hok hexec => by
    obtain ⟨g'', hexec', hg'', -⟩ := hg.handle hok
    rw [hexec, Option.some.injEq] at hexec'
    rwa [hexec']) hstart
  obtain ⟨g', hexec, -, haddr⟩ := hhold.handle hclean
  exact ⟨g', hexec, haddr⟩

end Gestures

/-- The desktop alone, pressed: the popup, which is not open, was never placed, and its corner is
that of the screen too. -/
theorem mouse_addressed_desktop : ∃ s s', s.desktopId = 0 ∧
    (wmHandleMessage noMessage (noMessage.ofType M_MOUSE_DOWN)).run s = .ok () s' ∧
    Addressed s s' (.window 0) := by
  have hrun : (runActs act Sound [.create (centred 1024 768) [] 1] (boot cleared)).map (fun s =>
      (s.live, s.wm.desktopId, onPopup s.wm, (s.wm.wndOf .popup).position,
        (s.wm.wndOf (.window 0)).position)) =
      some ([0], 0, false, ⟨0, 0, 0, 0⟩, ⟨0, 1024, 0, 768⟩) := by decide +kernel
  obtain ⟨s, hs, hend⟩ := Option.map_eq_some_iff.1 hrun
  simp only [Prod.mk.injEq] at hend
  obtain ⟨hlive, hdesk, hpop, hpopup, hwindow⟩ := hend
  obtain ⟨l, hperm, hlist⟩ := (inv_of_run (.of_runActs _ hs)).listed
  obtain rfl : l = [0] := by
    rw [hlive] at hperm
    exact hperm.eq_singleton
  have hpressed : pressedWindow s.wm [0] = 0 := by
    simp [pressedWindow, underMouse, hdesk]
  obtain ⟨s', hs', haddr, -⟩ := mouse_addressed hlist (by simp [hdesk])
    (show IsMouse (noMessage.ofType M_MOUSE_DOWN).msgType by decide) noMessage .popup
  have htarget : gestureTarget s.wm [0] .popup (noMessage.ofType M_MOUSE_DOWN) = .window 0 := by
    rw [gestureTarget, msgType_ofType, if_pos rfl, pressed, hpop, hpressed]
    rfl
  rw [htarget] at haddr
  refine ⟨s.wm, s', hdesk, hs', haddr fun _ _ => ?_⟩
  rw [hpressed, SameCorner, hpopup, hwindow]
  exact ⟨rfl, rfl⟩

/-- The desktop and a window in the middle of the screen, pressed there: the message has the
position on the screen. -/
theorem press_uses_popup_corner : ∃ s l s', Lists s l ∧ s.desktopId ∈ l ∧
    (wmHandleMessage noMessage (noMessage.ofType M_MOUSE_DOWN)).run s = .ok () s' ∧
    ∀ r₀, ¬Addressed s s' r₀ := by
  have hrun : ((runActs act Sound [.create (centred 1024 768) [] 1, .create (centred 300 200) [] 2]
      (boot cleared)).bind fun s =>
        match (wmHandleMessage noMessage (noMessage.ofType M_MOUSE_DOWN)).run s.wm with
        | .ok _ s' =>
            let b := (s.wm.wndOf (.window 1)).msgBuf
            let b' := (s'.wndOf (.window 1)).msgBuf
            let m := cell b' b.rear.val
            some (s.live, (b.cnt, b'.cnt), [s.wm.desktopId, m.msgType, m.params 0, s'.mousePos.x,
              (s'.wndOf (.window 1)).position.xmin])
        | .fail _ _ => none) = some ([1, 0], (0, 1), [0, M_MOUSE_DOWN, 512, 512, 362]) := by
    decide +kernel
  obtain ⟨s, hs, hend⟩ := Option.bind_eq_some_iff.1 hrun
  cases hstep : (wmHandleMessage noMessage (noMessage.ofType M_MOUSE_DOWN)).run s.wm with
  | fail e s' =>
      rw [hstep] at hend
      cases hend
  | ok u s' =>
      rw [hstep] at hend
      simp only [Option.some.injEq, Prod.mk.injEq, List.cons.injEq] at hend
      obtain ⟨hlive, ⟨hcnt, hcnt'⟩, hdesk, htype, hparam, hmouse, hcorner, -⟩ := hend
      obtain ⟨l, hperm, hlist⟩ := (inv_of_run (.of_runActs _ hs)).listed
      refine ⟨s.wm, l, s', hlist, ?_, hstep, fun r₀ haddr => ?_⟩
      · rw [hperm.mem_iff, hlive, hdesk]
        decide
      · obtain ⟨-, hx, -⟩ := haddr (.window 1) _ ⟨0, by rw [hcnt, hcnt']; decide, rfl⟩ (by
          rw [Nat.add_zero, htype]
          decide)
        rw [Nat.add_zero, hparam, hmouse, hcorner] at hx
        omega

end Xv6.Kernel.Wm
