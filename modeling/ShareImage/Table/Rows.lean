import ShareImage.Table.World
import ShareImage.Search.Mirror
import ShareImage.Images.Provenance
import ShareImage.Views.Content

namespace ShareImage.Table

open Framework

def World.users (w : World) : List User := w.search.controller.users

/-- What one event does to the screen. -/
inductive Transition (p : Platform) (w : World) : Event → World → Prop
  | search (e : Search.Event) (search : Search.World) (h : w.search.step e=some search) :
      Transition p w (.search e)
        {w with search := search,needsReload := w.needsReload || w.reloadsData e}
  | reload : Transition p w .reload
        {w with
          cells := w.cells.release fun _ => true
          numberOfRows := w.users.length
          needsReload := false}
  | cellForRow (row position : Nat) (cells : Pool Nat) (cell : Nat) (user : User)
      (hrow : row<w.numberOfRows) (hcell : w.cells.acquire row position=some (cells,cell))
      (huser : w.users[row]?=some user) :
      Transition p w (.cellForRow row position) (w.setUser p cells cell user)
  | endDisplaying (row : Nat) (h : w.shows row=true) :
      Transition p w (.endDisplaying row) {w with cells := w.cells.release fun r => r==row}
  | didSelectRow (row : Nat) (user : User) (hrow : w.shows row=true)
      (huser : w.users[row]?=some user) : Transition p w (.didSelectRow row) w
  | images (e : Event) (views : Views.World) (x : Views.Event)
      (h : w.views.step p x=some views) (hx : ∀n,x.sets n=false) :
      Transition p w e {w with views := views}
  | trap (e : Event) (row : Nat) (hrow : row<w.numberOfRows ∨ w.shows row=true)
      (huser : w.users[row]?=none) : Transition p w e {w with trapped := true}

theorem didSelectRow_cases (vc : SearchTableViewController) (row : Nat) :
    (∃user,vc.users[row]?=some user ∧ vc.didSelectRow row=some user.username) ∨
    (vc.users[row]?=none ∧ vc.didSelectRow row=none) := by
  unfold SearchTableViewController.didSelectRow
  cases vc.users[row]? with
  | none => exact .inr ⟨rfl,rfl⟩
  | some user => exact .inl ⟨user,rfl,rfl⟩

theorem imageStep_transition (p : Platform) (w v : World) (e : Event) (x : Views.Event)
    (h : w.imageStep p x=some v) (hx : ∀n,x.sets n=false) : Transition p w e v := by
  obtain ⟨views,hviews,rfl⟩ := Option.map_eq_some_iff.mp h
  exact .images e views x hviews hx

theorem step_transition (p : Platform) (w v : World) (e : Event) (h : w.step p e=some v) :
    w.trapped=false ∧ Transition p w e v := by
  unfold World.step at h
  split at h
  · contradiction
  · rename_i htrapped
    refine ⟨by simpa using htrapped,?_⟩
    cases e with
    | search e =>
      obtain ⟨search,hsearch,rfl⟩ := Option.map_eq_some_iff.mp h
      exact .search e search hsearch
    | reload =>
      cases h
      exact .reload
    | cellForRow row position =>
      simp only [World.react] at h
      split at h
      · rename_i hrow
        obtain ⟨⟨cells,cell⟩,hcell,hv⟩ := Option.map_eq_some_iff.mp h
        rw [SearchTableViewController.cellForRow_eq] at hv
        cases huser : w.search.controller.users[row]? with
        | none =>
          simp only [huser] at hv
          subst hv
          exact .trap _ row (.inl hrow) huser
        | some user =>
          simp only [huser] at hv
          subst hv
          exact .cellForRow row position cells cell user hrow hcell huser
      · contradiction
    | endDisplaying row =>
      simp only [World.react] at h
      split at h
      · rename_i hrow
        cases h
        exact .endDisplaying row hrow
      · contradiction
    | didSelectRow row =>
      simp only [World.react] at h
      split at h
      · rename_i hrow
        rcases didSelectRow_cases w.search.controller row with ⟨user,huser,hs⟩ | ⟨huser,hs⟩
        · rw [hs] at h
          cases h
          exact .didSelectRow row user hrow huser
        · rw [hs] at h
          cases h
          exact .trap _ row (.inr hrow) huser
      · contradiction
    | completeTask k data error =>
      exact imageStep_transition p w v _ (.completeTask k data error) h fun _ => rfl
    | runPosted k => exact imageStep_transition p w v _ (.runPosted k) h fun _ => rfl

/-- The user that the event appends to the list. -/
def World.delivered (w : World) : Search.Event → Option User
  | .deliver => w.search.queue.head?.bind DataSnapshot.user
  | _ => none

theorem reloadsData_delivered (w : World) (e : Search.Event) :
    w.reloadsData e=(w.delivered e).isSome := by
  cases e with
  | viewDidLoad => rfl
  | change c => rfl
  | deliver =>
    unfold World.reloadsData World.delivered
    cases w.search.queue.head? with
    | none => rfl
    | some snapshot => exact SearchTableViewController.reloadsData_eq snapshot

theorem search_users (w : World) (e : Search.Event) (search : Search.World)
    (h : w.search.step e=some search) :
    search.controller.users=w.users++(w.delivered e).toList := by
  rcases Search.step_cases w.search search e h with ⟨rfl,_,rfl⟩ | ⟨c,node,rfl,_,rfl⟩ |
    ⟨snapshot,queue,rfl,hq,rfl⟩
  · exact (List.append_nil _).symm
  · exact (List.append_nil _).symm
  · have hdelivered : w.delivered .deliver=snapshot.user := by
      simp [World.delivered,hq]
    rw [hdelivered]
    exact w.search.controller.fetchUsers_users snapshot

/-- The list only grows, and at its end. -/
theorem Transition.users {p : Platform} {w v : World} {e : Event} (h : Transition p w e v) :
    w.users<+:v.users := by
  cases h with
  | search e search h =>
    have husers := search_users w e search h
    exact ⟨(w.delivered e).toList,husers.symm⟩
  | reload | cellForRow | endDisplaying | didSelectRow | images | trap => exact List.prefix_refl _

theorem run_users (p : Platform) (w v : World) (es : List Event)
    (h : (machine p).run w es=some v) : w.users<+:v.users := by
  apply (machine p).run_relates (fun w v => w.users<+:v.users) (fun w => List.prefix_refl _)
    (fun _ _ _ => List.IsPrefix.trans) _ w v es h
  intro w e v hstep
  exact (step_transition p w v e hstep).2.users

/-- The texts of a cell that shows a complete user. -/
def labels (user : User) : Views.ReusableView := .searchUserCell ⟨user.username,user.name⟩

section Cell

variable (p : Platform) (w : Views.World) (cell : Nat) (user : User)

theorem setUser_complete (c : SearchUserCell) (hc : w.view cell=.searchUserCell c)
    (h : user.isComplete=true) : (w.setUser p cell user).view cell=labels user ∧
    ∃s,user.profileImageUrl=some s ∧
      (w.setUser p cell user).images=w.images.loadImage p cell s := by
  have hset : (w.view cell).didSet (some user)=(labels user,user.profileImageUrl) := by
    rw [hc]
    change (c.didSet (some user)).map Views.ReusableView.searchUserCell id=_
    rw [c.didSet_complete user h]
    rfl
  obtain ⟨s,hs⟩ : ∃s,user.profileImageUrl=some s := by
    apply Option.isSome_iff_exists.mp
    unfold User.isComplete at h
    simp only [Bool.and_eq_true] at h
    exact h.1.1
  rw [hs] at hset
  have hworld : w.setUser p cell user=
      ⟨w.images.loadImage p cell s,Function.update w.view cell (labels user)⟩ := by
    simp only [Views.World.setUser,hset]
  rw [hworld]
  exact ⟨Function.update_self ..,s,hs,rfl⟩

theorem setUser_incomplete (c : SearchUserCell) (hc : w.view cell=.searchUserCell c)
    (h : user.isComplete=false) : w.setUser p cell user=w := by
  have hset : (w.view cell).didSet (some user)=(w.view cell,none) := by
    rw [hc]
    change (c.didSet (some user)).map Views.ReusableView.searchUserCell id=_
    rw [c.didSet_incomplete user h]
    rfl
  have hview : Function.update w.view cell (w.view cell)=w.view := Function.update_eq_self ..
  simp only [Views.World.setUser,hset,hview]

theorem setUser_other (n : Nat) (h : n≠cell) : (w.setUser p cell user).view n=w.view n :=
  Function.update_of_ne h ..

end Cell

/-- The image views load the photos of the users in the list and nothing else. -/
structure Pictured (p : Platform) (users : List User) (images : Images.World) : Prop where
  coherent : Images.Coherent p images
  depicts : images.Depicts p
  calls : ∀x∈images.calls,∃user∈users,user.isComplete=true ∧ user.profileImageUrl=some x.2

theorem start_pictured (p : Platform) : Pictured p [] {} where
  coherent := Images.start_coherent p
  depicts := Images.start_depicts p
  calls := by simp

theorem Pictured.mono {p : Platform} {users more : List User} {images : Images.World}
    (h : Pictured p users images) (hsub : users⊆more) : Pictured p more images where
  coherent := h.coherent
  depicts := h.depicts
  calls := by
    intro x hx
    obtain ⟨user,huser,hload⟩ := h.calls x hx
    exact ⟨user,hsub huser,hload⟩

/-- A step of the image views that asks at most for the photo of a user in the list. -/
theorem Pictured.step {p : Platform} {users : List User} {images v : Images.World}
    (h : Pictured p users images) (e : Images.Event) (hstep : images.step p e=some v)
    (he : ∀view s,e=.loadImage view s →
      ∃user∈users,user.isComplete=true ∧ user.profileImageUrl=some s) :
    Pictured p users v where
  coherent := Images.step_coherent p images e v h.coherent hstep
  depicts := Images.step_depicts p images v e h.coherent h.depicts hstep
  calls := by
    intro x hx
    rcases Images.step_cases p images v e hstep with ⟨view,s,hload,rfl⟩ | ⟨k,t,d,error,_,_,rfl⟩ |
      ⟨k,a,_,_,rfl⟩
    · rw [(Images.loadImage_rest p images view s).1] at hx
      rcases List.mem_append.mp hx with hx | hx
      · exact h.calls x hx
      · have hnew : x=(view,s) := List.mem_singleton.mp hx
        rw [hnew]
        exact he view s hload
    · exact h.calls x hx
    · exact h.calls x hx

theorem Pictured.views {p : Platform} {users : List User} {w v : Views.World}
    (h : Pictured p users w.images) (x : Views.Event) (hstep : w.step p x=some v)
    (hx : ∀n,x.sets n=false) : Pictured p users v.images := by
  cases x with
  | setUser n user =>
    have hsets := hx n
    simp [Views.Event.sets] at hsets
  | completeTask k data error =>
    obtain ⟨images,himages,rfl⟩ := Option.map_eq_some_iff.mp hstep
    apply h.step _ himages
    intro view s hload
    contradiction
  | runPosted k =>
    obtain ⟨images,himages,rfl⟩ := Option.map_eq_some_iff.mp hstep
    apply h.step _ himages
    intro view s hload
    contradiction

/-- What holds of the screen in every reachable state. -/
structure Coherent (p : Platform) (w : World) : Prop where
  numberOfRows : w.numberOfRows≤w.users.length
  current : w.needsReload=false → w.numberOfRows=w.users.length
  row : ∀row cell,(row,cell)∈w.cells.used → ∃user,w.users[row]?=some user ∧ w.user cell=some user
  shows : ∀cell user,w.user cell=some user → user.isComplete=true →
    w.views.view cell=labels user
  origin : ∀cell,w.views.view cell=.new .searchUserCell ∨
    ∃user∈w.users,user.isComplete=true ∧ w.views.view cell=labels user
  pictured : Pictured p w.users w.views.images
  alive : w.trapped=false

theorem launch_coherent (p : Platform) (children : AList fun _ : String => AnyObject) :
    Coherent p (World.launch children) where
  numberOfRows := le_rfl
  current := fun _ => rfl
  row := by
    intro row cell h
    contradiction
  shows := by
    intro cell user h
    contradiction
  origin := fun _ => .inl rfl
  pictured := start_pictured p
  alive := rfl

section Coherent

variable {p : Platform} {w : World} (hw : Coherent p w)
include hw

theorem Coherent.cell (cell : Nat) : ∃c,w.views.view cell=.searchUserCell c := by
  rcases hw.origin cell with hnew | ⟨user,_,_,hlabels⟩
  · exact ⟨_,hnew⟩
  · exact ⟨_,hlabels⟩

theorem Coherent.row_lt (row : Nat) (h : w.shows row=true) : row<w.users.length := by
  obtain ⟨⟨r,cell⟩,hu,hrow⟩ := List.any_eq_true.mp h
  have hr : r=row := by simpa using hrow
  obtain ⟨user,huser,_⟩ := hw.row r cell hu
  rw [←hr]
  exact (List.getElem?_eq_some_iff.mp huser).1

theorem Coherent.search (e : Search.Event) (search : Search.World)
    (h : w.search.step e=some search) :
    Coherent p {w with search := search,needsReload := w.needsReload || w.reloadsData e} := by
  have husers := search_users w e search h
  have hsub : w.users⊆search.controller.users := by
    rw [husers]
    exact List.subset_append_left ..
  have hlen : w.users.length≤ search.controller.users.length := by
    rw [husers,List.length_append]
    omega
  refine ⟨hw.numberOfRows.trans hlen,?_,?_,hw.shows,?_,hw.pictured.mono hsub,hw.alive⟩
  · intro hcurrent
    obtain ⟨hneeds,hreloads⟩ := Bool.or_eq_false_iff.mp hcurrent
    have hnone : w.delivered e=none := by
      rw [reloadsData_delivered] at hreloads
      simpa using hreloads
    have hsame : search.controller.users=w.users := by
      rw [husers,hnone]
      exact List.append_nil _
    change w.numberOfRows=search.controller.users.length
    rw [hsame]
    exact hw.current hneeds
  · intro row cell hcell
    obtain ⟨user,hrow,huser⟩ := hw.row row cell hcell
    have hlt : row<w.users.length := (List.getElem?_eq_some_iff.mp hrow).1
    refine ⟨user,?_,huser⟩
    change search.controller.users[row]?=some user
    rw [husers,List.getElem?_append_left hlt]
    exact hrow
  · intro cell
    rcases hw.origin cell with hnew | ⟨user,huser,hcomplete⟩
    · exact .inl hnew
    · exact .inr ⟨user,hsub huser,hcomplete⟩

/-- Rows that leave the screen take nothing with them. -/
theorem Coherent.release (leaves : Nat → Bool) (numberOfRows : Nat) (needsReload : Bool)
    (hrows : numberOfRows≤w.users.length)
    (hcurrent : needsReload=false → numberOfRows=w.users.length) :
    Coherent p {w with
      cells := w.cells.release leaves
      numberOfRows := numberOfRows
      needsReload := needsReload} where
  numberOfRows := hrows
  current := hcurrent
  row := fun row cell h => hw.row row cell ((w.cells.mem_release leaves (row,cell)).mp h).1
  shows := hw.shows
  origin := hw.origin
  pictured := hw.pictured
  alive := hw.alive

theorem Coherent.setUser (row position : Nat) (cells : Pool Nat) (cell : Nat) (user : User)
    (hcell : w.cells.acquire row position=some (cells,cell)) (huser : w.users[row]?=some user) :
    Coherent p (w.setUser p cells cell user) := by
  obtain ⟨c,hc⟩ := hw.cell cell
  obtain ⟨hused,hfree⟩ := w.cells.acquire_spec cells row position cell hcell
  have hmem : user∈w.users := List.mem_of_getElem? huser
  have hother (n : Nat) (hn : n≠cell) :
      (w.setUser p cells cell user).user n=w.user n ∧
      (w.setUser p cells cell user).views.view n=w.views.view n :=
    ⟨Function.update_of_ne hn ..,setUser_other p w.views cell user n hn⟩
  have hself : (w.setUser p cells cell user).user cell=some user := Function.update_self ..
  refine ⟨hw.numberOfRows,hw.current,?_,?_,?_,?_,hw.alive⟩
  · intro r n hn
    have hn' : (r,n)∈cells.used := hn
    rw [hused] at hn'
    rcases List.mem_cons.mp hn' with heq | hold
    · cases heq
      exact ⟨user,huser,hself⟩
    · -- the cell has just come from the pool, so it is not the cell of another row
      have hne : n≠cell := by
        intro hnc
        exact hfree r (hnc ▸ hold)
      obtain ⟨u,hu,hcu⟩ := hw.row r n hold
      exact ⟨u,hu,(hother n hne).1.trans hcu⟩
  · intro n u hu hcomplete
    by_cases hn : n=cell
    · subst hn
      rw [hself] at hu
      cases hu
      exact (setUser_complete p w.views n user c hc hcomplete).1
    · rw [(hother n hn).1] at hu
      rw [(hother n hn).2]
      exact hw.shows n u hu hcomplete
  · intro n
    by_cases hn : n=cell
    · subst hn
      cases hcomplete : user.isComplete with
      | true =>
        exact .inr ⟨user,hmem,hcomplete,(setUser_complete p w.views n user c hc hcomplete).1⟩
      | false =>
        have hsame : (w.setUser p cells n user).views=w.views :=
          setUser_incomplete p w.views n user c hc hcomplete
        rw [hsame]
        exact hw.origin n
    · rw [(hother n hn).2]
      exact hw.origin n
  · change Pictured p w.users (w.views.setUser p cell user).images
    cases hcomplete : user.isComplete with
    | true =>
      obtain ⟨_,s,hs,hload⟩ := setUser_complete p w.views cell user c hc hcomplete
      rw [hload]
      apply hw.pictured.step (.loadImage cell s) rfl
      intro view t ht
      cases ht
      exact ⟨user,hmem,hcomplete,hs⟩
    | false =>
      rw [setUser_incomplete p w.views cell user c hc hcomplete]
      exact hw.pictured

theorem Coherent.images (views : Views.World) (x : Views.Event) (h : w.views.step p x=some views)
    (hx : ∀n,x.sets n=false) : Coherent p {w with views := views} := by
  have hview (n : Nat) : views.view n=w.views.view n := by
    rcases Views.step_view p w.views x views h n with hsame | ⟨user,rfl,_⟩
    · exact hsame
    · have hsets := hx n
      simp [Views.Event.sets] at hsets
  refine ⟨hw.numberOfRows,hw.current,hw.row,?_,?_,hw.pictured.views x h hx,hw.alive⟩
  · intro cell user huser hcomplete
    exact (hview cell).trans (hw.shows cell user huser hcomplete)
  · intro cell
    change views.view cell=_ ∨ ∃user∈w.users,_ ∧ views.view cell=_
    rw [hview cell]
    exact hw.origin cell

end Coherent

theorem step_coherent (p : Platform) (w : World) (e : Event) (v : World) (hw : Coherent p w)
    (h : w.step p e=some v) : Coherent p v := by
  obtain ⟨_,ht⟩ := step_transition p w v e h
  cases ht with
  | search e search hs => exact hw.search e search hs
  | reload => exact hw.release _ _ _ le_rfl fun _ => rfl
  | cellForRow row position cells cell user _ hcell huser =>
    exact hw.setUser row position cells cell user hcell huser
  | endDisplaying row _ => exact hw.release _ _ _ hw.numberOfRows hw.current
  | didSelectRow => exact hw
  | images e views x hviews hx => exact hw.images views x hviews hx
  | trap e row hrow huser =>
    have hlt : row<w.users.length := by
      rcases hrow with hrow | hrow
      · exact lt_of_lt_of_le hrow hw.numberOfRows
      · exact hw.row_lt row hrow
    rw [List.getElem?_eq_getElem hlt] at huser
    contradiction

theorem run_coherent (p : Platform) (children : AList fun _ : String => AnyObject)
    (es : List Event) (w : World) (h : (machine p).run (World.launch children) es=some w) :
    Coherent p w :=
  (machine p).run_invariant (Coherent p) (step_coherent p) _ w es (launch_coherent p children) h

/-- `users[indexPath.row]` never traps: the list only grows at its end, so a row that the table view
knows stays the row of its user. Each row on screen has a cell of its own, which is not waiting to
be reused, and which has that user and, if the user is complete, his name and full name. -/
theorem rows_on_screen (p : Platform) (children : AList fun _ : String => AnyObject)
    (pre es : List Event) (before w : World)
    (hpre : (machine p).run (World.launch children) pre=some before)
    (h : (machine p).run before es=some w) :
    w.trapped=false ∧ before.users<+:w.users ∧
    w.numberOfRows≤w.users.length ∧ (w.needsReload=false → w.numberOfRows=w.users.length) ∧
    ∀row cell,(row,cell)∈w.cells.used →
      (∃user,w.users[row]?=some user ∧ w.user cell=some user ∧
        (user.isComplete=true → w.views.view cell=labels user)) ∧
      (∀other,(other,cell)∈w.cells.used → other=row) ∧ cell∉w.cells.free := by
  have hwhole : (machine p).run (World.launch children) (pre++es)=some w := by
    rw [Machine.run_append,hpre]
    exact h
  have hw : Coherent p w := run_coherent p children _ w hwhole
  refine ⟨hw.alive,run_users p before w es h,hw.numberOfRows,hw.current,?_⟩
  intro row cell hcell
  obtain ⟨user,hrow,huser⟩ := hw.row row cell hcell
  refine ⟨⟨user,hrow,huser,hw.shows cell user huser⟩,?_,w.cells.not_free row cell hcell⟩
  intro other hother
  exact w.cells.key_unique other row cell hother hcell

def ann : AnyObject := .dictionary [("username",.string "ann"),("fullname",.string "Ann Lee"),
  ("profileImageUrl",.string "https://i/ann")]

def bob : AnyObject := .dictionary [("username",.string "bob"),("fullname",.string "Bob Ray"),
  ("profileImageUrl",.string "https://i/bob")]

/-- A record is there, its row is shown and leaves the screen. -/
def scrolled : List Event :=
  [.search .viewDidLoad,.search .deliver,.reload,.cellForRow 0 0,
    .completeTask 0 (some ⟨[7]⟩) none,.runPosted 0,.endDisplaying 0]

/-- Another record comes in, and its row gets the same cell. -/
def reused : List Event :=
  [.search (.change (.report ⟨"uid2",some bob⟩)),.search .deliver,.reload,.cellForRow 1 0,
    .didSelectRow 1]

theorem rows_on_screen_reused :
    ∃before w,
      (machine .plain).run (World.launch (AList.singleton "uid1" ann)) scrolled=some before ∧
      (machine .plain).run before reused=some w ∧ w.cells.used=[(1,0)] ∧
      w.users.length=2 ∧ before.users<+:w.users := by
  refine ⟨_,_,rfl,rfl,rfl,rfl,?_⟩
  exact (rows_on_screen .plain (AList.singleton "uid1" ann) scrolled reused _ _ rfl rfl).2.1

/-- A cell shows nothing that is not in the list: its texts are the first ones or the two names of
one user in it, and its image is decoded from a response to the URL of a user in it. -/
theorem cells_show_the_list (p : Platform) (children : AList fun _ : String => AnyObject)
    (es : List Event) (w : World) (h : (machine p).run (World.launch children) es=some w)
    (cell : Nat) :
    (w.views.view cell=.new .searchUserCell ∨
      ∃user∈w.users,user.isComplete=true ∧ w.views.view cell=labels user) ∧
    ∀image,w.views.images.image cell=some image → ∃user∈w.users,user.isComplete=true ∧
      ∃s,user.profileImageUrl=some s ∧ w.views.images.Own p s (some image) := by
  have hw : Coherent p w := run_coherent p children es w h
  refine ⟨hw.origin cell,?_⟩
  intro image himage
  obtain ⟨_,_,_,hbrought⟩ := hw.pictured.depicts cell image himage
  obtain ⟨other,s,hcall,hown⟩ := hbrought.own hw.pictured.coherent
  obtain ⟨user,huser,hcomplete,hurl⟩ := hw.pictured.calls (other,s) hcall
  exact ⟨user,huser,hcomplete,s,hurl,hown⟩

theorem cells_show_the_list_reused :
    ∃w,(machine .plain).run (World.launch (AList.singleton "uid1" ann)) (scrolled++reused)=some w ∧
      w.views.images.image 0=some {pixels := [7]} ∧
      ∃user∈w.users,user.isComplete=true ∧ ∃s,user.profileImageUrl=some s ∧
        w.views.images.Own .plain s (some {pixels := [7]}) := by
  refine ⟨_,rfl,rfl,?_⟩
  exact (cells_show_the_list .plain (AList.singleton "uid1" ann) (scrolled++reused) _ rfl 0).2
    {pixels := [7]} rfl

end ShareImage.Table
