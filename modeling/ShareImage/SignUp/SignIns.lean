import ShareImage.SignUp.Form

namespace ShareImage

namespace LoginViewController

/-- The login screen with these texts in its fields, validated. -/
def typed (email password : String) : LoginViewController :=
  ({emailTextField := ⟨some email⟩,passwordTextField := ⟨some password⟩} :
    LoginViewController).formValidation

/-- Validation looks at the texts only. -/
theorem formValidation_typed (vc : LoginViewController) (email password : String)
    (he : vc.emailTextField=⟨some email⟩) (hp : vc.passwordTextField=⟨some password⟩) :
    vc.formValidation=typed email password := by
  obtain ⟨emailTextField,passwordTextField,button⟩ := vc
  cases he
  cases hp
  unfold typed formValidation
  split <;> rfl

theorem typed_fields (email password : String) :
    (typed email password).emailTextField=⟨some email⟩ ∧
    (typed email password).passwordTextField=⟨some password⟩ := by
  unfold typed formValidation
  split <;> exact ⟨rfl,rfl⟩

theorem typed_enabled (email password : String) :
    (typed email password).signInButton.isEnabled=true ↔ email≠"" ∧ password≠"" := by
  unfold typed formValidation
  split
  · rename_i h
    simpa [UITextField.hasText] using h
  · rename_i h
    simpa [UITextField.hasText] using h

theorem typed_editingChanged (email password : String) (f : Field) (text : String) :
    (typed email password).editingChanged f text=
      match f with
      | .email => typed text password
      | .password => typed email text := by
  obtain ⟨he,hp⟩ := typed_fields email password
  cases f with
  | email => exact formValidation_typed _ text password rfl hp
  | password => exact formValidation_typed _ email text he rfl

theorem typed_handleSignIn (email password : String) :
    (typed email password).handleSignIn=some (email,password) := by
  obtain ⟨he,hp⟩ := typed_fields email password
  simp [handleSignIn,he,hp]

end LoginViewController

namespace SignUps

open Framework

/-- The text that the event puts into a field of login screen `n`. -/
def Event.types (n : Nat) (f : LoginViewController.Field) : Event → Option String
  | .editLogin m g text => if m=n ∧ g=f then some text else none
  | _ => none

/-- What a field of login screen `n` has after the events. -/
def text (n : Nat) (f : LoginViewController.Field) (es : List Event) : String :=
  (es.filterMap (Event.types n f)).getLastD ""

theorem text_concat (n : Nat) (f : LoginViewController.Field) (es : List Event) (e : Event) :
    text n f (es++[e])=(e.types n f).getD (text n f es) := by
  unfold text
  rw [List.filterMap_append]
  cases he : e.types n f with
  | none => simp [he]
  | some t => simp [he]

/-- The event sends a request of `handleSignIn`. -/
def Event.signsIn : Event → Bool
  | .tapSignIn _ => true
  | _ => false

/-- The event runs the completion of request `k`. -/
def Event.completesSignIn (k : Nat) : Event → Bool
  | .completeSignIn j _ => j==k
  | _ => false

/-- What the event asks of the rest of the app. -/
def Event.commands : Event → List Command
  | .completeSignIn _ error => LoginViewController.signInCompletion error
  | _ => []

/-- What an event does to login screen `n`. -/
def Event.onLogin (n : Nat) (e : Event) (vc : LoginViewController) : LoginViewController :=
  match e with
  | .editLogin m f t => if m=n then vc.editingChanged f t else vc
  | .validateLogin m => if m=n then vc.formValidation else vc
  | _ => vc

/-- What one event does to the sign-ins: nothing, a request, or the completion of one. -/
inductive SignInStep (w v : World) : Event → Prop
  | other (e : Event) (htap : e.signsIn=false) (hdone : ∀k,e.completesSignIn k=false)
      (hasks : e.commands=[]) (hsignIns : v.signIns=w.signIns) (hcommands : v.commands=w.commands) :
      SignInStep w v e
  | sent (n : Nat) (email password : String) (henabled : (w.login n).signInButton.isEnabled=true)
      (hrequest : (w.login n).handleSignIn=some (email,password))
      (hsignIns : v.signIns=w.signIns++[⟨email,password,false⟩])
      (hcommands : v.commands=w.commands) :
      SignInStep w v (.tapSignIn n)
  | completed (k : Nat) (error : Option String) (r : SignIn) (hr : w.signIns[k]?=some r)
      (hopen : r.completed=false) (hsignIns : v.signIns=w.signIns.set k {r with completed := true})
      (hcommands : v.commands=w.commands++LoginViewController.signInCompletion error) :
      SignInStep w v (.completeSignIn k error)

theorem update_login (w : World) (m n : Nat) (f : LoginViewController → LoginViewController) :
    (w.updateLogin m f).login n=if m=n then f (w.login n) else w.login n := by
  unfold World.updateLogin
  by_cases h : m=n
  · subst h
    simp
  · simp [h,Function.update_of_ne (Ne.symm h)]

theorem step_signIns (p : Platform) (w v : World) (e : Event) (h : w.step p e=some v) :
    SignInStep w v e ∧ ∀n,v.login n=e.onLogin n (w.login n) := by
  cases e with
  | editSignUp | validateSignUp | pickPhoto =>
    cases h
    exact ⟨.other _ rfl (fun _ => rfl) rfl rfl rfl,fun _ => rfl⟩
  | tapSignUp n uuid =>
    simp only [World.step] at h
    split at h
    · cases h
      exact ⟨.other _ rfl (fun _ => rfl) rfl rfl rfl,fun _ => rfl⟩
    · contradiction
  | answer | complete =>
    simp only [World.step,Option.bind_eq_bind,Option.bind_eq_some_iff] at h
    obtain ⟨f,_,next,_,hv⟩ := h
    cases hv
    exact ⟨.other _ rfl (fun _ => rfl) rfl rfl rfl,fun _ => rfl⟩
  | editLogin m f t =>
    cases h
    exact ⟨.other _ rfl (fun _ => rfl) rfl rfl rfl,fun n => update_login ..⟩
  | validateLogin m =>
    cases h
    exact ⟨.other _ rfl (fun _ => rfl) rfl rfl rfl,fun n => update_login ..⟩
  | tapSignIn n =>
    simp only [World.step] at h
    split at h
    · rename_i henabled
      obtain ⟨⟨email,password⟩,hrequest,hv⟩ := Option.map_eq_some_iff.mp h
      subst hv
      exact ⟨.sent n email password henabled hrequest rfl rfl,fun _ => rfl⟩
    · contradiction
  | completeSignIn k error =>
    simp only [World.step,Option.bind_eq_bind,Option.bind_eq_some_iff] at h
    obtain ⟨r,hr,hv⟩ := h
    split at hv
    · contradiction
    · rename_i hopen
      cases hv
      exact ⟨.completed k error r hr (by simpa using hopen) rfl rfl,fun _ => rfl⟩

theorem onLogin_typed (n : Nat) (e : Event) (email password : String) :
    e.onLogin n (.typed email password)=
      .typed ((e.types n .email).getD email) ((e.types n .password).getD password) := by
  cases e with
  | editLogin m f t =>
    by_cases hm : m=n
    · rw [Event.onLogin,if_pos hm,LoginViewController.typed_editingChanged]
      cases f with
      | email => simp [Event.types,hm]
      | password => simp [Event.types,hm]
    · simp [Event.onLogin,Event.types,hm]
  | validateLogin m =>
    obtain ⟨he,hp⟩ := LoginViewController.typed_fields email password
    simp only [Event.onLogin,Event.types,Option.getD_none]
    split
    · exact LoginViewController.formValidation_typed _ email password he hp
    · rfl
  | _ => rfl

/-- A login screen is what the texts last typed on it make of a new one. -/
theorem run_login (p : Platform) (es : List Event) (w : World)
    (h : (machine p).run (World.launch p) es=some w) (n : Nat) :
    w.login n=.typed (text n .email es) (text n .password es) := by
  refine (machine p).run_history
    (fun es w => w.login n=.typed (text n .email es) (text n .password es))
    (World.launch p) rfl ?_ es w h
  intro es u e v _ hu hstep
  rw [(step_signIns p u v e hstep).2 n,hu,onLogin_typed,text_concat,text_concat]

/-- What the events tell of request `k`. -/
structure Traced (es : List Event) (k : Nat) (r : SignIn) : Prop where
  tapped : ∃pre n post,es=pre++.tapSignIn n::post ∧ pre.countP Event.signsIn=k ∧
    r.email=text n .email pre ∧ r.email≠"" ∧ r.password=text n .password pre ∧ r.password≠""
  completed : es.countP (Event.completesSignIn k)=if r.completed then 1 else 0

/-- What the events tell of the sign-ins. -/
structure Accounted (es : List Event) (w : World) : Prop where
  length : w.signIns.length=es.countP Event.signsIn
  unsent : ∀k,w.signIns.length≤k → es.countP (Event.completesSignIn k)=0
  traced : ∀k r,w.signIns[k]?=some r → Traced es k r
  commands : w.commands=es.flatMap Event.commands

theorem launch_accounted (p : Platform) : Accounted [] (World.launch p) where
  length := rfl
  unsent := fun _ _ => rfl
  traced := by
    intro k r hr
    contradiction
  commands := rfl

theorem Traced.concat {es : List Event} {k : Nat} {r : SignIn} (h : Traced es k r) (e : Event)
    (completed : Bool)
    (hc : (es++[e]).countP (Event.completesSignIn k)=if completed then 1 else 0) :
    Traced (es++[e]) k {r with completed := completed} where
  tapped := by
    obtain ⟨pre,n,post,rfl,htexts⟩ := h.tapped
    exact ⟨pre,n,post++[e],by simp,htexts⟩
  completed := hc

section Account

variable {es : List Event} {w v : World}

/-- The event tells nothing of a request that it does not complete. -/
theorem Accounted.kept (hw : Accounted es w) (e : Event) (k : Nat) (r : SignIn)
    (hr : w.signIns[k]?=some r) (he : e.completesSignIn k=false) : Traced (es++[e]) k r := by
  have hold : Traced es k r := hw.traced k r hr
  apply hold.concat e r.completed
  rw [countP_concat,he]
  exact hold.completed

theorem Accounted.asked (hw : Accounted es w) (e : Event) (h : v.commands=w.commands++e.commands) :
    v.commands=(es++[e]).flatMap Event.commands := by
  rw [h,hw.commands,List.flatMap_append]
  simp

theorem Accounted.other (hw : Accounted es w) (e : Event) (htap : e.signsIn=false)
    (hdone : ∀k,e.completesSignIn k=false) (hasks : e.commands=[]) (hsignIns : v.signIns=w.signIns)
    (hcommands : v.commands=w.commands) : Accounted (es++[e]) v where
  length := by
    rw [hsignIns,hw.length,countP_concat,htap]
    rfl
  unsent := by
    intro k hk
    rw [countP_concat,hdone k,hw.unsent k (hsignIns ▸ hk)]
    rfl
  traced := by
    intro k r hr
    exact hw.kept e k r (hsignIns ▸ hr) (hdone k)
  commands := by
    apply hw.asked e
    rw [hasks,List.append_nil]
    exact hcommands

/-- The new request has what was last typed on its screen. -/
theorem Accounted.sent (hw : Accounted es w) (n : Nat) (email password : String)
    (htexts : w.login n=.typed (text n .email es) (text n .password es))
    (henabled : (w.login n).signInButton.isEnabled=true)
    (hrequest : (w.login n).handleSignIn=some (email,password))
    (hsignIns : v.signIns=w.signIns++[⟨email,password,false⟩]) (hcommands : v.commands=w.commands) :
    Accounted (es++[.tapSignIn n]) v where
  length := by
    rw [hsignIns,List.length_append,hw.length,countP_concat]
    rfl
  unsent := by
    intro k hk
    have hle : w.signIns.length≤k := by
      rw [hsignIns,List.length_append] at hk
      exact Nat.le_of_add_right_le hk
    rw [countP_concat,hw.unsent k hle]
    rfl
  traced := by
    intro k r hr
    rw [hsignIns] at hr
    by_cases hk : k<w.signIns.length
    · rw [List.getElem?_append_left hk] at hr
      exact hw.kept _ k r hr rfl
    · obtain ⟨rfl,rfl⟩ : k=w.signIns.length ∧ r=⟨email,password,false⟩ := by
        rw [List.getElem?_append_right (Nat.le_of_not_lt hk),List.getElem?_singleton] at hr
        split at hr
        · exact ⟨by omega,(Option.some.inj hr).symm⟩
        · contradiction
      rw [htexts,LoginViewController.typed_enabled] at henabled
      rw [htexts,LoginViewController.typed_handleSignIn] at hrequest
      obtain ⟨rfl,rfl⟩ := Prod.mk.inj (Option.some.inj hrequest)
      refine ⟨⟨es,n,[],rfl,hw.length.symm,rfl,henabled.1,rfl,henabled.2⟩,?_⟩
      rw [countP_concat,hw.unsent _ le_rfl]
      rfl
  commands := by
    apply hw.asked
    simp [hcommands,Event.commands]

theorem Accounted.completed (hw : Accounted es w) (k : Nat) (error : Option String) (r : SignIn)
    (hr : w.signIns[k]?=some r) (hopen : r.completed=false)
    (hsignIns : v.signIns=w.signIns.set k {r with completed := true})
    (hcommands : v.commands=w.commands++LoginViewController.signInCompletion error) :
    Accounted (es++[.completeSignIn k error]) v where
  length := by
    rw [hsignIns,List.length_set,hw.length,countP_concat]
    rfl
  unsent := by
    intro j hj
    have hk : k<w.signIns.length := (List.getElem?_eq_some_iff.mp hr).1
    rw [hsignIns,List.length_set] at hj
    have hkj : k≠j := by omega
    rw [countP_concat,hw.unsent j hj]
    simp [Event.completesSignIn,hkj]
  traced := by
    intro j x hx
    have hk : k<w.signIns.length := (List.getElem?_eq_some_iff.mp hr).1
    rw [hsignIns] at hx
    by_cases hkj : k=j
    · subst hkj
      rw [List.getElem?_set_self hk] at hx
      have hold : Traced es k r := hw.traced k r hr
      rw [←Option.some.inj hx]
      apply hold.concat _ true
      rw [countP_concat,hold.completed,hopen]
      simp [Event.completesSignIn]
    · rw [List.getElem?_set_ne hkj] at hx
      exact hw.kept _ j x hx (by simpa [Event.completesSignIn] using hkj)
  commands := hw.asked _ hcommands

theorem step_accounted (p : Platform) (e : Event)
    (hlogin : ∀n,w.login n=.typed (text n .email es) (text n .password es))
    (hw : Accounted es w) (h : w.step p e=some v) : Accounted (es++[e]) v := by
  cases (step_signIns p w v e h).1 with
  | other e htap hdone hasks hsignIns hcommands =>
    exact hw.other e htap hdone hasks hsignIns hcommands
  | sent n email password henabled hrequest hsignIns hcommands =>
    exact hw.sent n email password (hlogin n) henabled hrequest hsignIns hcommands
  | completed k error r hr hopen hsignIns hcommands =>
    exact hw.completed k error r hr hopen hsignIns hcommands

end Account

/-- Every request of `handleSignIn` goes back to one tap: the requests are those of the taps, in
order, and each has the texts last typed on the screen of its tap before it, neither of them empty.
No request is completed twice, and the app is told to rebuild its tabs and to dismiss the screen
exactly by the completions without an error, in their order. -/
theorem sign_in_of_one_tap (p : Platform) (es : List Event) (w : World)
    (h : (machine p).run (World.launch p) es=some w) :
    w.signIns.length=es.countP Event.signsIn ∧
    (∀k r,w.signIns[k]?=some r → Traced es k r) ∧
    (∀k,es.countP (Event.completesSignIn k)≤1) ∧
    w.commands=es.flatMap Event.commands := by
  have hw : Accounted es w := by
    apply (machine p).run_history Accounted (World.launch p) (launch_accounted p) _ es w h
    intro es u e v hrun hu hstep
    exact step_accounted p e (run_login p es u hrun) hu hstep
  refine ⟨hw.length,hw.traced,?_,hw.commands⟩
  intro k
  cases hr : w.signIns[k]? with
  | none => rw [hw.unsent k (List.getElem?_eq_none_iff.mp hr)]; exact Nat.zero_le 1
  | some r => rw [(hw.traced k r hr).completed]; split <;> omega

/-- Two requests of one screen are answered the other way round, and the first one fails. -/
def signedInTwice : List Event :=
  [.editLogin 0 .email "a@x.org",.editLogin 0 .password "secret",.tapSignIn 0,
    .editLogin 0 .email "b@x.org",.tapSignIn 0,.completeSignIn 1 none,
    .completeSignIn 0 (some "network")]

theorem sign_in_of_one_tap_signedInTwice :
    ∃w,(machine .plain).run (World.launch .plain) signedInTwice=some w ∧
      w.commands=[.configureViewControllers,.dismiss] ∧
      w.signIns=[⟨"a@x.org","secret",true⟩,⟨"b@x.org","secret",true⟩] ∧
      Traced signedInTwice 1 ⟨"b@x.org","secret",true⟩ := by
  refine ⟨_,rfl,rfl,rfl,?_⟩
  exact (sign_in_of_one_tap .plain signedInTwice _ rfl).2.1 1 _ rfl

end SignUps

end ShareImage
