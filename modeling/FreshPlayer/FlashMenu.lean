import FreshPlayer.Transition
import Mathlib.Data.Int.Order.Basic
import Mathlib.Data.List.Nodup

/-! Context menus. A menu of the plugin is converted into one of the toolkit; what the user does
with it goes through variables that all menus share. -/
namespace FreshPlayer
namespace FlashMenu

/-- `unknown` is any other number. -/
inductive ItemType
  | normal | checkbox | separator | submenu | unknown
  deriving DecidableEq, Repr

/-- The items of a menu, each with the menu under it. -/
inductive Menu
  | done
  | item (type : ItemType) (name : String) (id : ℤ) (enabled checked : Bool) (submenu rest : Menu)
  deriving DecidableEq, Repr

inductive Widget
  | label | check (active : Bool) | separator
  deriving DecidableEq, Repr

/-- A menu of the toolkit. Items have the `id` that is stored when they are activated, if a
handler is connected. -/
inductive GtkMenu
  | done
  | item (widget : Widget) (name : String) (sensitive : Bool) (id : Option ℤ)
      (submenu rest : GtkMenu)
  deriving DecidableEq, Repr

def convertMenu : Menu → GtkMenu
  | .done => .done
  | .item type name id enabled checked submenu rest =>
    match type with
    | .normal => .item .label name enabled (some id) .done (convertMenu rest)
    | .checkbox => .item (.check checked) name enabled (some id) .done (convertMenu rest)
    | .separator => .item .separator "" enabled (some id) .done (convertMenu rest)
    | .submenu => .item .label name enabled none (convertMenu submenu) (convertMenu rest)
    | .unknown => convertMenu rest

/-- `gtk_menu_shell_append`. -/
def GtkMenu.append : GtkMenu → GtkMenu → GtkMenu
  | .done, m => m
  | .item widget name sensitive id submenu rest, m =>
    .item widget name sensitive id submenu (rest.append m)

def appendVersionInformation (version : String) (menu : GtkMenu) : GtkMenu :=
  menu.append (.item .separator "" true none .done
    (.item .label ("freshwrapper, " ++ version) false none .done .done))

/-- Whether the version is shown, and which. -/
structure Config where
  showVersionInfo : Bool
  version : String

def flashMenuCreate (c : Config) (menu : Menu) : GtkMenu :=
  let m := convertMenu menu
  if c.showVersionInfo then appendVersionInformation c.version m else m

/-- The identifiers whose handlers the user can get called: of sensitive items in the menu and
in those that open from it. -/
def GtkMenu.selectable : GtkMenu → List ℤ
  | .done => []
  | .item _ _ sensitive id submenu rest =>
    (if sensitive then id.toList ++ submenu.selectable else []) ++ rest.selectable

/-- The identifiers the plugin offers. -/
def Menu.offered : Menu → List ℤ
  | .done => []
  | .item type _ id enabled _ submenu rest =>
    (if enabled then match type with
      | .normal | .checkbox | .separator => [id]
      | .submenu => submenu.offered
      | .unknown => []
    else []) ++ rest.offered

inductive Code
  | ok | userCancel
  deriving DecidableEq, Repr

/-- What a call of Show was given. -/
structure Request where
  menu : ℕ
  result : Option ℕ
  callback : ℕ
  deriving DecidableEq, Repr

/-- A menu on its way to the screen or there, with the number of the call of Show that sent it. -/
structure Shown where
  menu : ℕ
  request : ℕ
  deriving DecidableEq, Repr

/-- A callback posted, with the variable that the result was to be stored in. The number of the
call is a ghost. -/
structure Completion where
  callback : ℕ
  code : Code
  value : Option ℤ
  request : ℕ
  deriving DecidableEq, Repr

/-- How far `menu_selection_done` has got on the browser thread, if it runs. -/
inductive Closing
  | no | posted | sentinelCleared
  deriving DecidableEq, Repr

/-- The variables the menus share, the calls of `menu_popup_ptac` under way, the menus open and
the variables of the plugin. `popupMenuRequest`, `requests` and `picked` are ghosts: the calls
of Show and what the user picked in the menus of each. -/
structure State where
  popupMenuResult : Option ℕ
  popupMenuCcb : ℕ
  popupMenuSentinel : Bool
  popupMenuCanceled : Bool
  popupMenuRequest : ℕ
  closing : Closing
  menus : List Menu
  popups : List Shown
  opened : List Shown
  memory : ℕ → ℤ
  completions : List Completion
  requests : List Request
  picked : List (ℕ × ℤ)

def State.create : State :=
  ⟨none,0,false,false,0,.no,[],[],[],fun _ => 0,[],[],[]⟩

/-- `menu_item_activated` and `menu_item_button_press`. -/
def menuItemActivated (s : State) (id : ℤ) : State :=
  { s with
    memory := match s.popupMenuResult with
      | some a => Function.update s.memory a id
      | none => s.memory
    popupMenuCanceled := false }

/-- The callback is posted, and the plugin may run it before the rest is done. -/
def menuSelectionDone (s : State) : State :=
  let code := if s.popupMenuCanceled then Code.userCancel else .ok
  let completion : Completion :=
    ⟨s.popupMenuCcb,code,s.popupMenuResult.map s.memory,s.popupMenuRequest⟩
  { s with completions := s.completions ++ [completion], closing := .posted }

/-- The rest of `menu_selection_done`, a variable at a time and under no lock. -/
def menuSelectionCleared (s : State) : Option State :=
  match s.closing with
  | .no => none
  | .posted => some { s with popupMenuSentinel := false, closing := .sentinelCleared }
  | .sentinelCleared => some { s with popupMenuResult := none, closing := .no }

def ppbFlashMenuShow (s : State) (menu : ℕ) (result : Option ℕ) (callback : ℕ) : State :=
  if menu < s.menus.length then
    { s with
      popupMenuSentinel := true
      popupMenuCanceled := true
      popupMenuCcb := callback
      popupMenuResult := result
      popupMenuRequest := s.requests.length
      popups := s.popups ++ [⟨menu,s.requests.length⟩]
      requests := s.requests ++ [⟨menu,result,callback⟩] }
  else s

/-- The calls of the plugin, the browser thread carrying a call out, and the user. A menu popped
up again while it is open stays open once. -/
inductive Action
  | create (menu : Menu)
  | showMenu (menu : ℕ) (result : Option ℕ) (callback : ℕ)
  | popup (k : ℕ)
  | pick (k : ℕ) (id : ℤ)
  | selectionDone (k : ℕ)
  | cleared
  deriving DecidableEq, Repr

/-- Nothing else happens on the browser thread while `menu_selection_done` runs. -/
def step (c : Config) (s : State) : Action → Option State
  | .create menu => some { s with menus := s.menus ++ [menu] }
  | .showMenu menu result callback => some (ppbFlashMenuShow s menu result callback)
  | .popup k => if s.closing = .no then (s.popups[k]?).map fun x =>
      let s := { s with popups := s.popups.eraseIdx k }
      if x.menu ∈ s.opened.map (·.menu) then s else { s with opened := s.opened ++ [x] }
    else none
  | .pick k id => if s.closing = .no then
      (s.opened[k]?).bind fun x => (s.menus[x.menu]?).bind fun menu =>
        if id ∈ (flashMenuCreate c menu).selectable then
          some { menuItemActivated s id with picked := s.picked ++ [(x.request,id)] }
        else none
    else none
  | .selectionDone k => if s.closing = .no then (s.opened[k]?).map fun _ =>
      menuSelectionDone { s with opened := s.opened.eraseIdx k }
    else none
  | .cleared => menuSelectionCleared s

def machine (c : Config) : Machine State Action := ⟨.create,step c⟩

/-! What the user can pick is what the plugin offered. -/

theorem GtkMenu.selectable_append (m n : GtkMenu) :
    (m.append n).selectable = m.selectable ++ n.selectable := by
  induction m with
  | done => rfl
  | item widget name sensitive id submenu rest _ ih =>
    simp only [GtkMenu.append,selectable,ih,List.append_assoc]

theorem convertMenu_selectable (menu : Menu) : (convertMenu menu).selectable = menu.offered := by
  induction menu with
  | done => rfl
  | item type name id enabled checked submenu rest ihs ih =>
    cases type <;> simp [convertMenu,GtkMenu.selectable,Menu.offered,ihs,ih]

theorem flashMenuCreate_selectable (c : Config) (menu : Menu) :
    (flashMenuCreate c menu).selectable = menu.offered := by
  unfold flashMenuCreate
  dsimp only
  split_ifs
  · rw [appendVersionInformation,GtkMenu.selectable_append,convertMenu_selectable]
    simp [GtkMenu.selectable]
  · exact convertMenu_selectable menu

/-! Completions. -/

/-- No menu is shown while another one is. -/
def OneAtATime (s : State) : Action → Prop
  | .showMenu menu _ _ => menu < s.menus.length → s.popups ++ s.opened = []
  | _ => True

instance (s : State) (a : Action) : Decidable (OneAtATime s a) := by
  apply a.casesOn (motive := fun a => Decidable (OneAtATime s a)) <;> intros <;>
    dsimp only [OneAtATime] <;> infer_instance

/-- Each call of Show was answered once and in turn, but for the last one while its menu is
shown. -/
structure Answered (s : State) : Prop where
  turns : s.completions.map (·.request) ++ (s.popups ++ s.opened).map (·.request) =
    List.range s.requests.length
  shown : s.popups ++ s.opened = [] ∨
    ∃ x, s.popups ++ s.opened = [x] ∧ x.request = s.popupMenuRequest

variable {c : Config} {s t u : State}

theorem Answered.shown_of_mem {x : Shown} (h : Answered s) (hx : x ∈ s.popups ++ s.opened) :
    s.popups ++ s.opened = [x] ∧ x.request = s.popupMenuRequest := by
  obtain hnil | ⟨y,hy,hr⟩ := h.shown
  · rw [hnil] at hx
    cases hx
  · rw [hy] at hx
    cases List.mem_singleton.mp hx
    exact ⟨hy,hr⟩

theorem Answered.opened {k : ℕ} {x : Shown} (h : Answered s) (hk : s.opened[k]? = some x) :
    s.popups = [] ∧ s.opened = [x] ∧ k = 0 ∧ x.request = s.popupMenuRequest := by
  obtain ⟨hone,hr⟩ := h.shown_of_mem (List.mem_append_right _ (List.mem_of_getElem? hk))
  have hlt := (List.getElem?_eq_some_iff.mp hk).1
  have hlen := congrArg List.length hone
  rw [List.length_append,List.length_singleton] at hlen
  have hnil : s.popups = [] := List.length_eq_zero_iff.mp (by omega)
  rw [hnil] at hone
  exact ⟨hnil,hone,by omega,hr⟩

theorem Answered.waiting {k : ℕ} {x : Shown} (h : Answered s) (hk : s.popups[k]? = some x) :
    s.popups = [x] ∧ s.opened = [] ∧ k = 0 ∧ x.request = s.popupMenuRequest := by
  obtain ⟨hone,hr⟩ := h.shown_of_mem (List.mem_append_left _ (List.mem_of_getElem? hk))
  have hlt := (List.getElem?_eq_some_iff.mp hk).1
  have hlen := congrArg List.length hone
  rw [List.length_append,List.length_singleton] at hlen
  have hnil : s.opened = [] := List.length_eq_zero_iff.mp (by omega)
  rw [hnil,List.append_nil] at hone
  exact ⟨hone,hnil,by omega,hr⟩

/-- Neither the menus shown nor the answers change. -/
theorem Answered.keep (h : Answered s) (hc : t.completions = s.completions)
    (hp : t.popups = s.popups) (ho : t.opened = s.opened) (hr : t.requests = s.requests)
    (hm : t.popupMenuRequest = s.popupMenuRequest) : Answered t := by
  refine ⟨?_,?_⟩
  · rw [hc,hp,ho,hr]
    exact h.turns
  · rw [hp,ho,hm]
    exact h.shown

/-- What `menu_selection_done` still has to clear. -/
theorem menuSelectionCleared_keeps (h : menuSelectionCleared s = some t) :
    t.completions = s.completions ∧ t.popups = s.popups ∧ t.opened = s.opened ∧
    t.requests = s.requests ∧ t.popupMenuRequest = s.popupMenuRequest ∧ t.menus = s.menus ∧
    t.picked = s.picked := by
  unfold menuSelectionCleared at h
  split at h <;> cases h <;> exact ⟨rfl,rfl,rfl,rfl,rfl,rfl,rfl⟩

/-- Showing a menu over another one is the only step after which a call stays unanswered. -/
theorem Answered.step_iff {a : Action} (h : Answered s) (ht : step c s a = some t) :
    Answered t ↔ OneAtATime s a := by
  have hturns := h.turns
  have hshown := h.shown
  cases a with
  | create menu =>
    cases ht
    exact ⟨fun _ => trivial,fun _ => ⟨hturns,hshown⟩⟩
  | showMenu menu result callback =>
    simp only [step,Option.some.injEq,ppbFlashMenuShow] at ht
    split_ifs at ht with hm <;> subst ht
    · constructor
      · intro ht _
        obtain hnil | ⟨x,hx,-⟩ := ht.shown
        · simp at hnil
        · have hlen := congrArg List.length hx
          simp only [List.length_append,List.length_singleton] at hlen
          exact List.length_eq_zero_iff.mp (by rw [List.length_append]; omega)
      · intro hg
        obtain ⟨hp,ho⟩ := List.append_eq_nil_iff.mp (hg hm)
        rw [hp,ho,List.nil_append,List.map_nil,List.append_nil] at hturns
        refine ⟨?_,.inr ⟨⟨menu,s.requests.length⟩,by simp [hp,ho],rfl⟩⟩
        simp [hturns,hp,ho,List.range_succ]
    · exact ⟨fun _ hlt => absurd hlt hm,fun _ => h⟩
  | popup k =>
    refine ⟨fun _ => trivial,fun _ => ?_⟩
    simp only [step] at ht
    split_ifs at ht
    obtain ⟨x,hx,rfl⟩ := Option.map_eq_some_iff.mp ht
    obtain ⟨hp,ho,rfl,hr⟩ := h.waiting hx
    refine ⟨?_,.inr ⟨x,?_,?_⟩⟩
    · simpa [hp,ho] using hturns
    · simp [hp,ho]
    · simp [ho,hr]
  | pick k id =>
    refine ⟨fun _ => trivial,fun _ => ?_⟩
    simp only [step] at ht
    split_ifs at ht
    obtain ⟨x,hx,ht⟩ := Option.bind_eq_some_iff.mp ht
    obtain ⟨menu,hmenu,ht⟩ := Option.bind_eq_some_iff.mp ht
    split_ifs at ht
    cases ht
    exact ⟨hturns,hshown⟩
  | selectionDone k =>
    refine ⟨fun _ => trivial,fun _ => ?_⟩
    simp only [step] at ht
    split_ifs at ht
    obtain ⟨x,hx,rfl⟩ := Option.map_eq_some_iff.mp ht
    obtain ⟨hp,ho,rfl,hr⟩ := h.opened hx
    refine ⟨?_,.inl ?_⟩
    · simpa [menuSelectionDone,hp,ho,hr] using hturns
    · simp [menuSelectionDone,hp,ho]
  | cleared =>
    obtain ⟨hc,hp,ho,hr,hm,-⟩ := menuSelectionCleared_keeps ht
    exact ⟨fun _ => trivial,fun _ => h.keep hc hp ho hr hm⟩

theorem created_answered : Answered State.create := ⟨rfl,.inl rfl⟩

/-- An item, and another one in a menu under it. -/
def settings : Menu :=
  .item .normal "Zoom" 1 true false .done (.item .submenu "Quality" 0 true false
    (.item .checkbox "High" 7 true true .done .done) .done)

/-- The user picks in one menu and cancels the next. -/
def oneByOne : List Action :=
  [.create settings,.showMenu 0 (some 100) 50,.popup 0,.pick 0 7,.selectionDone 0,.cleared,.cleared,
    .showMenu 0 (some 100) 51,.popup 0,.selectionDone 0,.cleared,.cleared]

/-- The posted callback shows the menu again before the rest of `menu_selection_done` is run. -/
def hurried : List Action :=
  [.create settings,.showMenu 0 (some 100) 50,.popup 0,.pick 0 7,.selectionDone 0,
    .showMenu 0 (some 101) 51,.cleared,.cleared,.popup 0,.pick 0 1,.selectionDone 0]

/-- A menu is shown over another one, and both are closed. -/
def atOnce : List Action :=
  [.create settings,.create settings,.showMenu 0 none 50,.showMenu 1 none 51,.popup 0,.popup 0,
    .selectionDone 0,.cleared,.cleared,.selectionDone 0]

/-- What the user picked in the menu that a call of Show sent. -/
def picks (picked : List (ℕ × ℤ)) (request : ℕ) : List ℤ :=
  (picked.filter (·.1 = request)).map (·.2)

theorem picks_snoc (picked : List (ℕ × ℤ)) (r request : ℕ) (id : ℤ) :
    picks (picked ++ [(r,id)]) request =
      if r = request then picks picked request ++ [id] else picks picked request := by
  unfold picks
  rw [List.filter_append,List.filter_singleton]
  split_ifs with h <;> simp [h]

theorem mem_picks {picked : List (ℕ × ℤ)} {request : ℕ} {id : ℤ} (h : id ∈ picks picked request) :
    (request,id) ∈ picked := by
  obtain ⟨p,hp,rfl⟩ := List.mem_map.mp h
  obtain ⟨hp,hr⟩ := List.mem_filter.mp hp
  rw [← of_decide_eq_true hr]
  exact hp

/-- The callback tells what the user picked: `stored` is what the variable of the call holds. -/
structure Tells (q : Request) (ids : List ℤ) (callback : ℕ) (code : Code) (stored : ℕ → ℤ) :
    Prop where
  callback : callback = q.callback
  code : code = .ok ↔ ids ≠ []
  value : ∀ a ∈ q.result, ∀ id ∈ ids.getLast?, stored a = id

/-- What the answer is when the menu is closed now. -/
def State.code (s : State) : Code := if s.popupMenuCanceled then .userCancel else .ok

structure Truthful (s : State) : Prop where
  answered : Answered s
  done : ∀ y ∈ s.completions, ∃ q, s.requests[y.request]? = some q ∧
    ∃ stored, y.value = q.result.map stored ∧
      Tells q (picks s.picked y.request) y.callback y.code stored
  current : s.popups ++ s.opened ≠ [] → ∃ q, s.requests[s.popupMenuRequest]? = some q ∧
    q.result = s.popupMenuResult ∧
    Tells q (picks s.picked s.popupMenuRequest) s.popupMenuCcb s.code s.memory
  offered : ∀ p ∈ s.picked, ∃ q menu, s.requests[p.1]? = some q ∧ s.menus[q.menu]? = some menu ∧
    p.2 ∈ menu.offered
  sent : ∀ x ∈ s.popups ++ s.opened, ∃ q, s.requests[x.request]? = some q ∧ q.menu = x.menu
  closing : s.closing ≠ .no → s.popups ++ s.opened = []

/-- The call whose menu is shown was not answered yet. -/
theorem Answered.request_ne {x : Shown} {y : Completion} (h : Answered s)
    (hx : x ∈ s.popups ++ s.opened) (hy : y ∈ s.completions) :
    y.request ≠ s.popupMenuRequest := fun he => by
  have hnodup : (s.completions.map (·.request) ++
      (s.popups ++ s.opened).map (·.request)).Nodup := h.turns ▸ List.nodup_range
  refine List.disjoint_of_nodup_append hnodup (List.mem_map_of_mem hy) ?_
  rw [he,← (h.shown_of_mem hx).2]
  exact List.mem_map_of_mem hx

theorem getElem?_of_append {α : Type*} {l : List α} {k : ℕ} {x : α} (m : List α)
    (h : l[k]? = some x) : (l ++ m)[k]? = some x := by
  rw [List.getElem?_append_left (List.getElem?_eq_some_iff.mp h).1]
  exact h

theorem Truthful.create (h : Truthful s) (menu : Menu) :
    Truthful { s with menus := s.menus ++ [menu] } where
  answered := h.answered.keep rfl rfl rfl rfl rfl
  done := h.done
  current := h.current
  offered p hp := by
    obtain ⟨q,m,hq,hm,hid⟩ := h.offered p hp
    exact ⟨q,m,hq,getElem?_of_append [menu] hm,hid⟩
  sent := h.sent
  closing := h.closing

theorem Truthful.showMenu {menu callback : ℕ} {result : Option ℕ} (h : Truthful s)
    (hno : menu < s.menus.length → s.closing = .no)
    (ha : Answered (ppbFlashMenuShow s menu result callback)) :
    Truthful (ppbFlashMenuShow s menu result callback) := by
  unfold ppbFlashMenuShow at *
  split_ifs at * with hm
  · have hnone : picks s.picked s.requests.length = [] := by
      refine List.eq_nil_iff_forall_not_mem.mpr fun id hid => ?_
      obtain ⟨q,-,hq,-⟩ := h.offered _ (mem_picks hid)
      exact absurd (List.getElem?_eq_some_iff.mp hq).1 (Nat.lt_irrefl _)
    refine ⟨ha,fun y hy => ?_,fun _ => ?_,fun p hp => ?_,fun x hx => ?_,
      fun hc => absurd (hno hm) hc⟩
    · obtain ⟨q,hq,htells⟩ := h.done y hy
      exact ⟨q,getElem?_of_append _ hq,htells⟩
    · refine ⟨_,List.getElem?_concat_length,rfl,rfl,?_,?_⟩
      · simp [hnone,State.code]
      · simp [hnone]
    · obtain ⟨q,m,hq,hm,hid⟩ := h.offered p hp
      exact ⟨q,m,getElem?_of_append _ hq,hm,hid⟩
    · simp only [List.append_assoc,List.mem_append,List.mem_singleton] at hx
      obtain hx | rfl | hx := hx
      · obtain ⟨q,hq,hmenu⟩ := h.sent x (List.mem_append_left _ hx)
        exact ⟨q,getElem?_of_append _ hq,hmenu⟩
      · exact ⟨_,List.getElem?_concat_length,rfl⟩
      · obtain ⟨q,hq,hmenu⟩ := h.sent x (List.mem_append_right _ hx)
        exact ⟨q,getElem?_of_append _ hq,hmenu⟩
  · exact h

theorem Truthful.popup {k : ℕ} {x : Shown} (h : Truthful s) (hk : s.popups[k]? = some x)
    (hno : s.closing = .no) :
    Truthful { s with popups := s.popups.eraseIdx k, opened := s.opened ++ [x] } := by
  obtain ⟨hp,ho,rfl,hr⟩ := h.answered.waiting hk
  have hsent := h.sent x (List.mem_append_left _ (List.mem_of_getElem? hk))
  have hcurrent := h.current (by simp [hp])
  refine ⟨⟨?_,.inr ⟨x,?_,hr⟩⟩,h.done,fun _ => hcurrent,h.offered,fun y hy => ?_,
    fun hc => absurd hno hc⟩
  · simpa [hp,ho] using h.answered.turns
  · simp [hp,ho]
  · simp only [hp,ho,List.eraseIdx_cons_zero,List.nil_append] at hy
    cases List.mem_singleton.mp hy
    exact hsent

theorem Truthful.pick {k : ℕ} {id : ℤ} {x : Shown} {menu : Menu} (h : Truthful s)
    (hk : s.opened[k]? = some x) (hmenu : s.menus[x.menu]? = some menu) (hid : id ∈ menu.offered) :
    Truthful { menuItemActivated s id with picked := s.picked ++ [(x.request,id)] } := by
  obtain ⟨-,-,-,hr⟩ := h.answered.opened hk
  have hx : x ∈ s.popups ++ s.opened := List.mem_append_right _ (List.mem_of_getElem? hk)
  obtain ⟨r,hrq,hrm⟩ := h.sent x hx
  obtain ⟨q,hq,hres,htells⟩ := h.current (List.ne_nil_of_mem hx)
  have hpicks : picks (s.picked ++ [(x.request,id)]) s.popupMenuRequest =
      picks s.picked s.popupMenuRequest ++ [id] := by rw [picks_snoc,if_pos hr]
  refine ⟨h.answered.keep rfl rfl rfl rfl rfl,fun y hy => ?_,fun _ => ?_,fun p hp => ?_,h.sent,
    h.closing⟩
  · -- what was answered before is not picked from any more
    have hne := h.answered.request_ne hx hy
    obtain ⟨q,hq,htells⟩ := h.done y hy
    refine ⟨q,hq,?_⟩
    dsimp only
    rw [picks_snoc,if_neg (by rw [hr]; exact Ne.symm hne)]
    exact htells
  · refine ⟨q,hq,hres,htells.callback,?_,fun a ha i hi => ?_⟩
    · change _ ↔ picks (s.picked ++ [(x.request,id)]) s.popupMenuRequest ≠ []
      rw [hpicks]
      simp [State.code,menuItemActivated]
    · change i ∈ (picks (s.picked ++ [(x.request,id)]) s.popupMenuRequest).getLast? at hi
      rw [hpicks,List.getLast?_concat] at hi
      cases hi
      rw [Option.mem_def,hres] at ha
      simp [menuItemActivated,ha]
  · obtain hp | hp := List.mem_append.mp hp
    · exact h.offered p hp
    · cases List.mem_singleton.mp hp
      exact ⟨r,menu,hrq,hrm ▸ hmenu,hid⟩

theorem Truthful.selectionDone {k : ℕ} {x : Shown} (h : Truthful s) (hk : s.opened[k]? = some x)
    (ha : Answered (menuSelectionDone { s with opened := s.opened.eraseIdx k })) :
    Truthful (menuSelectionDone { s with opened := s.opened.eraseIdx k }) := by
  obtain ⟨hp,ho,rfl,-⟩ := h.answered.opened hk
  obtain ⟨q,hq,hres,htells⟩ := h.current (by simp [ho])
  have hnil : s.popups ++ s.opened.eraseIdx 0 = [] := by simp [hp,ho]
  refine ⟨ha,fun y hy => ?_,fun hne => absurd hnil hne,h.offered,fun y hy => ?_,fun _ => hnil⟩
  · obtain hy | hy := List.mem_append.mp hy
    · exact h.done y hy
    · cases List.mem_singleton.mp hy
      exact ⟨q,hq,s.memory,by rw [hres],htells⟩
  · exact absurd hnil (List.ne_nil_of_mem hy)

/-- The variables are cleared when no menu needs them. -/
theorem Truthful.cleared (h : Truthful s) (ht : menuSelectionCleared s = some t) : Truthful t := by
  have hclosing : s.closing ≠ .no := by
    rintro hno
    rw [menuSelectionCleared,hno] at ht
    cases ht
  obtain ⟨hc,hp,ho,hr,hm,hmenus,hpicked⟩ := menuSelectionCleared_keeps ht
  have hnil : t.popups ++ t.opened = [] := by rw [hp,ho,h.closing hclosing]
  refine ⟨h.answered.keep hc hp ho hr hm,?_,fun hne => absurd hnil hne,?_,?_,fun _ => hnil⟩
  · rw [hc,hr,hpicked]
    exact h.done
  · rw [hr,hmenus,hpicked]
    exact h.offered
  · rw [hp,ho,hr]
    exact h.sent

/-- No menu is shown while another one is, nor while `menu_selection_done` of the one before
still runs. -/
def Apart (s : State) : Action → Prop
  | .showMenu menu _ _ =>
    menu < s.menus.length → s.popups ++ s.opened = [] ∧ s.closing = .no
  | _ => True

instance (s : State) (a : Action) : Decidable (Apart s a) := by
  apply a.casesOn (motive := fun a => Decidable (Apart s a)) <;> intros <;>
    dsimp only [Apart] <;> infer_instance

theorem Apart.oneAtATime {a : Action} (h : Apart s a) : OneAtATime s a := by
  cases a with
  | showMenu menu result callback => exact fun hm => (h hm).1
  | _ => trivial

theorem Truthful.step {a : Action} (h : Truthful s) (hg : Apart s a)
    (ht : step c s a = some t) : Truthful t := by
  have ha := (h.answered.step_iff ht).mpr hg.oneAtATime
  cases a with
  | create menu =>
    cases ht
    exact h.create menu
  | showMenu menu result callback =>
    cases ht
    exact h.showMenu (fun hm => (hg hm).2) ha
  | popup k =>
    simp only [FlashMenu.step] at ht
    split_ifs at ht with hno
    obtain ⟨x,hx,rfl⟩ := Option.map_eq_some_iff.mp ht
    obtain ⟨-,ho,-⟩ := h.answered.waiting hx
    rw [if_neg (by simp [ho])]
    exact h.popup hx hno
  | pick k id =>
    simp only [FlashMenu.step] at ht
    split_ifs at ht
    obtain ⟨x,hx,ht⟩ := Option.bind_eq_some_iff.mp ht
    obtain ⟨menu,hmenu,ht⟩ := Option.bind_eq_some_iff.mp ht
    split_ifs at ht with hid
    cases ht
    rw [flashMenuCreate_selectable] at hid
    exact h.pick hx hmenu hid
  | selectionDone k =>
    simp only [FlashMenu.step] at ht
    split_ifs at ht
    obtain ⟨x,hx,rfl⟩ := Option.map_eq_some_iff.mp ht
    exact h.selectionDone hx ha
  | cleared => exact h.cleared ht

theorem created_truthful : Truthful State.create :=
  ⟨created_answered,fun _ hy => absurd hy List.not_mem_nil,fun h => absurd rfl h,
    fun _ hp => absurd hp List.not_mem_nil,fun _ hx => absurd hx List.not_mem_nil,fun _ => rfl⟩

/-- Where no menu is shown while another one is or is still being closed, each callback tells of
its own call: it says that something was picked exactly if the user did pick something in the menu
of that call, the variable then holds what was picked last, and all that was picked is what the
plugin offered. -/
theorem completions_tell (h : (machine c).ReachableVia Apart s) :
    ∀ y ∈ s.completions, ∃ q, s.requests[y.request]? = some q ∧ y.callback = q.callback ∧
      (y.code = .ok ↔ picks s.picked y.request ≠ []) ∧
      (∀ a ∈ q.result, ∀ id ∈ (picks s.picked y.request).getLast?, y.value = some id) ∧
      ∀ id ∈ picks s.picked y.request, ∃ menu, s.menus[q.menu]? = some menu ∧ id ∈ menu.offered := by
  intro y hy
  have hi := h.invariant Truthful created_truthful fun _ _ _ hi hg ht => hi.step hg ht
  obtain ⟨q,hq,stored,hval,htells⟩ := hi.done y hy
  refine ⟨q,hq,htells.callback,htells.code,fun a ha id hid => ?_,fun id hid => ?_⟩
  · rw [hval,Option.mem_def.mp ha,Option.map_some,htells.value a ha id hid]
  · obtain ⟨r,menu,hr,hmenu,hoffered⟩ := hi.offered _ (mem_picks hid)
    cases Option.some.inj (hr.symm.trans hq)
    exact ⟨menu,hmenu,hoffered⟩

theorem oneByOne_tell : ∃ s : State,
    (machine ⟨true,"0.3.5"⟩).exec (machine ⟨true,"0.3.5"⟩).start oneByOne = some s ∧
    s.completions = [⟨50,.ok,some 7,0⟩,⟨51,.userCancel,some 7,1⟩] ∧
    ∀ y ∈ s.completions, ∃ q, s.requests[y.request]? = some q ∧ y.callback = q.callback ∧
      (y.code = .ok ↔ picks s.picked y.request ≠ []) ∧
      (∀ a ∈ q.result, ∀ id ∈ (picks s.picked y.request).getLast?, y.value = some id) ∧
      ∀ id ∈ picks s.picked y.request, ∃ menu, s.menus[q.menu]? = some menu ∧ id ∈ menu.offered := by
  obtain ⟨s,hs,hc⟩ : ∃ s : State,
      (machine ⟨true,"0.3.5"⟩).exec (machine ⟨true,"0.3.5"⟩).start oneByOne = some s ∧
      s.completions = [⟨50,.ok,some 7,0⟩,⟨51,.userCancel,some 7,1⟩] := ⟨_,rfl,rfl⟩
  exact ⟨s,hs,hc,completions_tell (Machine.reachableVia_of_exec oneByOne .start hs (by decide))⟩

-- What was picked is lost when the second call is made too early.
example : ((machine ⟨true,"0.3.5"⟩).exec State.create hurried).map (·.completions) =
    some [⟨50,.ok,some 7,0⟩,⟨51,.ok,none,1⟩] := by rfl

end FlashMenu
end FreshPlayer
