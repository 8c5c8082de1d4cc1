import ShareImage.Images.Provenance
import ShareImage.Views.Content

namespace ShareImage.Views

open Framework

/-- The user that the event sets on the view. -/
def Event.assigns (n : Nat) : Event → Option User
  | .setUser m user => if m=n then some user else none
  | _ => none

/-- The users that the view has been given, in order. -/
def assigned (n : Nat) (es : List Event) : List User := es.filterMap (Event.assigns n)

/-- The texts of a view that has been given the users: those of the last one whose `didSet` replaces
the texts. -/
def texts (kind : Kind) (users : List User) : ReusableView :=
  match (users.filter kind.replaces).getLast? with
  | none => .new kind
  | some user => ((ReusableView.new kind).didSet (some user)).1

theorem didSet_of_not_replaces (view : ReusableView) (user : User)
    (h : view.kind.replaces user=false) : (view.didSet (some user)).1=view := by
  cases view with
  | searchUserCell cell =>
    have hsame := cell.didSet_incomplete user h
    change ReusableView.searchUserCell (cell.didSet (some user)).1=.searchUserCell cell
    rw [hsame]
  | userProfileHeader header => contradiction

theorem texts_concat (kind : Kind) (users : List User) (view : ReusableView) (user : User)
    (hkind : view.kind=kind) (h : view=texts kind users) :
    (view.didSet (some user)).1=texts kind (users++[user]) := by
  subst hkind
  cases hreplaces : view.kind.replaces user with
  | true =>
    have hlast : ((users++[user]).filter view.kind.replaces).getLast?=some user := by
      simp [hreplaces]
    rw [texts,hlast]
    exact (view.didSet_texts_iff user).mpr (.inl hreplaces)
  | false =>
    have hskip : (users++[user]).filter view.kind.replaces=users.filter view.kind.replaces := by
      simp [hreplaces]
    rw [didSet_of_not_replaces view user hreplaces,texts,hskip]
    exact h

theorem run_texts (p : Platform) (kind : Nat → Kind) (es : List Event) (w : World)
    (h : (machine p).run (World.launch kind) es=some w) (n : Nat) :
    w.view n=texts (kind n) (assigned n es) := by
  apply (machine p).run_history (fun es w => w.view n=texts (kind n) (assigned n es))
    (World.launch kind) rfl _ es w h
  intro es u e v hu htexts hstep
  have hkind : (u.view n).kind=kind n := run_kind p kind es u hu n
  have hassigned : assigned n (es++[e])=assigned n es++(e.assigns n).toList := by
    rw [assigned,List.filterMap_append]
    cases hassigns : e.assigns n <;> simp [assigned,hassigns]
  rw [hassigned]
  cases e with
  | setUser m user =>
    by_cases hm : m=n
    · subst hm
      have hset : v.view m=((u.view m).didSet (some user)).1 := by
        rw [←Option.some.inj hstep]
        exact Function.update_self ..
      have hone : (Event.setUser m user).assigns m=some user := if_pos rfl
      rw [hset,hone]
      exact texts_concat (kind m) _ _ user hkind htexts
    · have hnone : (Event.setUser m user).assigns n=none := if_neg hm
      have hsame : v.view n=u.view n := by
        rw [←Option.some.inj hstep]
        exact Function.update_of_ne (Ne.symm hm) ..
      rw [hsame,hnone,htexts]
      simp
  | completeTask k data error =>
    rcases step_view p u (.completeTask k data error) v hstep n with hsame | ⟨_,hset,_⟩
    · rw [hsame,htexts]
      simp [Event.assigns]
    · contradiction
  | runPosted k =>
    rcases step_view p u (.runPosted k) v hstep n with hsame | ⟨_,hset,_⟩
    · rw [hsame,htexts]
      simp [Event.assigns]
    · contradiction

/-- A call of `loadImage` goes back to a user that its view has been given. -/
def Requested (kind : Nat → Kind) (es : List Event) (call : Nat × String) : Prop :=
  ∃user∈assigned call.1 es,(kind call.1).load user=some call.2

theorem step_requested (p : Platform) (kind : Nat → Kind) (es : List Event) (w v : World)
    (e : Event) (hkind : ∀n,(w.view n).kind=kind n)
    (hw : ∀call∈w.images.calls,Requested kind es call) (h : w.step p e=some v) :
    ∀call∈v.images.calls,Requested kind (es++[e]) call := by
  have old (call : Nat × String) (hcall : Requested kind es call) :
      Requested kind (es++[e]) call := by
    obtain ⟨user,huser,hload⟩ := hcall
    refine ⟨user,?_,hload⟩
    rw [assigned,List.filterMap_append]
    exact List.mem_append_left _ huser
  intro call hcall
  cases e with
  | setUser n user =>
    have hv : w.setUser p n user=v := Option.some.inj h
    subst hv
    cases hset : (w.view n).didSet (some user) with
    | mk view profileImageUrl =>
      have hload : (kind n).load user=profileImageUrl := by
        rw [←hkind n,←ReusableView.didSet_load,hset]
      simp only [World.setUser,hset] at hcall
      cases profileImageUrl with
      | none => exact old call (hw call hcall)
      | some s =>
        change call∈(w.images.loadImage p n s).calls at hcall
        rw [(Images.loadImage_rest p w.images n s).1] at hcall
        rcases List.mem_append.mp hcall with hcall | hcall
        · exact old call (hw call hcall)
        · rw [List.mem_singleton.mp hcall]
          refine ⟨user,?_,hload⟩
          simp [assigned,Event.assigns]
  | completeTask k data error =>
    obtain ⟨images,himages,rfl⟩ := Option.map_eq_some_iff.mp h
    obtain ⟨t,_,rfl⟩ := Option.map_eq_some_iff.mp himages
    exact old call (hw call hcall)
  | runPosted k =>
    obtain ⟨images,himages,rfl⟩ := Option.map_eq_some_iff.mp h
    obtain ⟨a,_,rfl⟩ := Option.map_eq_some_iff.mp himages
    exact old call (hw call hcall)

theorem run_requested (p : Platform) (kind : Nat → Kind) (es : List Event) (w : World)
    (h : (machine p).run (World.launch kind) es=some w) :
    ∀call∈w.images.calls,Requested kind es call := by
  apply (machine p).run_history (fun es w => ∀call∈w.images.calls,Requested kind es call)
    (World.launch kind) (fun _ hcall => by contradiction) _ es w h
  intro es u e v hu hrequested hstep
  exact step_requested p kind es u v e (run_kind p kind es u hu) hrequested hstep

/-- No view shows anything of another. The texts of a view are those of the last user that it has
been given itself and whose `didSet` replaces them; its image comes from a response to the URL of
some user that it has been given itself, or to one whose `absoluteString` is the same to Swift. -/
theorem shows_own_users (p : Platform) (kind : Nat → Kind) (es : List Event) (w : World)
    (h : (machine p).run (World.launch kind) es=some w) (n : Nat) :
    w.view n=texts (kind n) (assigned n es) ∧
    ∀image,w.images.image n=some image → ∃user∈assigned n es,∃s,(kind n).load user=some s ∧
      w.images.Brought p s image := by
  refine ⟨run_texts p kind es w h n,?_⟩
  have himages : Images.Coherent p w.images ∧ w.images.Depicts p := by
    apply (Images.machine p).run_invariant
      (fun images => Images.Coherent p images ∧ images.Depicts p) _ _ w.images _
      ⟨Images.start_coherent p,Images.start_depicts p⟩ (run_images p _ w es h)
    rintro images e v ⟨hc,hd⟩ hstep
    exact ⟨Images.step_coherent p images e v hc hstep,
      Images.step_depicts p images v e hc hd hstep⟩
  intro image himage
  obtain ⟨c,s,hc,hown⟩ := himages.2 n image himage
  obtain ⟨user,huser,hload⟩ := run_requested p kind es w h (n,s) (List.mem_of_getElem? hc)
  exact ⟨user,huser,s,hload,hown⟩

/-- Two cells load at once, and the first one is then given a user without an image. -/
def interleaved : List Event :=
  [.setUser 0 ann,.setUser 1 cid,.completeTask 1 (some ⟨[8]⟩) none,
    .completeTask 0 (some ⟨[7]⟩) none,
    .runPosted 1,.runPosted 0,.setUser 0 bob]

theorem shows_own_users_interleaved :
    ∃w,(machine .plain).run (World.launch kinds) interleaved=some w ∧
      w.images.image 0=some {pixels := [7]} ∧ w.images.image 1=some {pixels := [8]} ∧
      w.view 0=texts .searchUserCell [ann,bob] := by
  refine ⟨_,rfl,rfl,rfl,?_⟩
  exact (shows_own_users .plain kinds interleaved _ rfl 0).1

end ShareImage.Views
