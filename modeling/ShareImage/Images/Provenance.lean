import ShareImage.Images.Transparency

namespace ShareImage.Images

open Framework

/-- The response that was last stored under the string: the last one to a URL whose
`absoluteString` is the same string to Swift. -/
def World.lastResponse (p : Platform) (w : World) (s : String) : Option Response :=
  (w.responses.filter fun r => p.normal r.url.absoluteString==p.normal s).getLast?

/-- The image that the last response under the string decodes to. -/
def World.remembered (p : Platform) (w : World) (s : String) : Option UIImage :=
  (w.lastResponse p s).bind fun r => p.image r.data

theorem mem_of_lastResponse (p : Platform) (w : World) (s : String) (r : Response)
    (h : w.lastResponse p s=some r) :
    r∈w.responses ∧ p.normal r.url.absoluteString=p.normal s := by
  have hmem := List.mem_of_getLast? h
  simpa using hmem

theorem lastResponse_congr (p : Platform) (w v : World) (s : String)
    (h : v.responses=w.responses) : v.lastResponse p s=w.lastResponse p s := by
  rw [World.lastResponse,World.lastResponse,h]

theorem lastResponse_concat (p : Platform) (w v : World) (s : String) (r : Response)
    (h : v.responses=w.responses++[r]) : v.lastResponse p s=
      if p.normal r.url.absoluteString=p.normal s then some r else w.lastResponse p s := by
  unfold World.lastResponse
  rw [h,List.filter_append]
  by_cases hs : p.normal r.url.absoluteString=p.normal s
  · simp [hs]
  · simp [hs]

/-- A response that decodes to no image takes the entry away, like `imageCache[key] = nil`. -/
theorem step_remembered (p : Platform) (w v : World) (e : Event)
    (hw : ∀s,w.cached p s=w.remembered p s) (h : w.step p e=some v) (s : String) :
    v.cached p s=v.remembered p s := by
  have keep (hc : v.cache=w.cache) (hr : v.responses=w.responses) :
      v.cached p s=v.remembered p s := by
    rw [World.cached,hc,World.remembered,lastResponse_congr p w v s hr]
    exact hw s
  rcases step_cases p w v e h with ⟨view,t,rfl,rfl⟩ | ⟨k,t,data,error,rfl,ht,rfl⟩ | ⟨k,a,rfl,ha,rfl⟩
  · rcases loadImage_cases p w view t with ⟨image,_,hl⟩ | ⟨_,_,hl⟩ | ⟨url,_,_,hl⟩
    · exact keep (by rw [hl]) (by rw [hl])
    · exact keep (by rw [hl]) (by rw [hl])
    · exact keep (by rw [hl]) (by rw [hl])
  · cases data with
    | none => exact keep rfl (List.append_nil _)
    | some d =>
      have hcached : (w.completeTask p k t (some d) error).cached p s=
          if p.normal s=p.normal t.url.absoluteString then p.image d else w.cached p s :=
        w.cache.get_set p ..
      have hlast := lastResponse_concat p w (w.completeTask p k t (some d) error) s
        ⟨t.call,t.url,d⟩ rfl
      rw [hcached,World.remembered,hlast]
      by_cases hs : p.normal s=p.normal t.url.absoluteString
      · rw [if_pos hs,if_pos hs.symm]
        rfl
      · rw [if_neg hs,if_neg fun h => hs h.symm,hw s]
        rfl
  · exact keep rfl rfl

theorem run_remembered (p : Platform) (es : List Event) (w : World)
    (h : (machine p).run {} es=some w) : ∀s,w.cached p s=w.remembered p s := by
  have start : ∀s,({} : World).cached p s=({} : World).remembered p s := fun _ => rfl
  apply (machine p).run_invariant (fun w => ∀s,w.cached p s=w.remembered p s) _ {} w es start h
  intro w e v hw hstep
  exact step_remembered p w v e hw hstep

/-- The string denotes a URL and is its `absoluteString`. -/
def Canonical (p : Platform) (s : String) : Prop := ∃url,p.parse s=some url ∧ url.absoluteString=s

theorem Coherent.canonical {p : Platform} {w : World} (hw : Coherent p w) (r : Response)
    (hr : r∈w.responses) : Canonical p (p.normal r.url.absoluteString) := by
  obtain ⟨_,s,_,hparse⟩ := hw.response r hr
  rw [p.normal_absoluteString s r.url hparse]
  exact ⟨r.url,p.parse_absoluteString s r.url hparse,rfl⟩

/-- The cache is a function of the responses so far, whoever asked for them and in whatever order:
under a string it has what the last response decodes to whose URL has that `absoluteString`, as
Swift compares strings. A string whose normal form is not the `absoluteString` of its own URL never
gets an entry, so each call with it downloads again. -/
theorem cache_of_responses (p : Platform) (es : List Event) (w : World)
    (h : (machine p).run {} es=some w) (s : String) :
    w.cached p s=w.remembered p s ∧
    (¬Canonical p (p.normal s) → w.cached p s=none ∧ ∀view url,p.parse s=some url →
      (w.loadImage p view s).tasks=w.tasks++[⟨w.calls.length,view,url⟩]) := by
  have hcache : w.cached p s=w.remembered p s := run_remembered p es w h s
  refine ⟨hcache,?_⟩
  intro hs
  have hnone : w.cached p s=none := by
    cases hentry : w.cached p s with
    | none => rfl
    | some image =>
      rw [hcache] at hentry
      obtain ⟨r,hr,_⟩ := Option.bind_eq_some_iff.mp hentry
      obtain ⟨hmem,hkey⟩ := mem_of_lastResponse p w s r hr
      have hcanonical := (run_coherent p es w h).canonical r hmem
      rw [hkey] at hcanonical
      exact absurd hcanonical hs
  refine ⟨hnone,?_⟩
  intro view url hparse
  simp [World.loadImage,UIImageView.loadImage,hnone,hparse]

theorem cache_of_responses_loadedTwice :
    ∃w,(machine .plain).run {} loadedTwice=some w ∧
      w.cached .plain "https://i/1"=some {pixels := [7]} ∧
      w.remembered .plain "https://i/1"=w.cached .plain "https://i/1" := by
  refine ⟨_,rfl,rfl,?_⟩
  exact (cache_of_responses .plain loadedTwice _ rfl "https://i/1").1.symm

/-- The image is the string's own, or filed under it in the cache. -/
def World.Brought (p : Platform) (w : World) (s : String) (image : UIImage) : Prop :=
  ∃r∈w.responses,p.image r.data=some image ∧
    (p.parse s=some r.url ∨ p.normal s=p.normal r.url.absoluteString)

theorem World.Own.brought {p : Platform} {w : World} {s : String} {image : UIImage}
    (h : w.Own p s (some image)) : w.Brought p s image := by
  obtain ⟨r,hr,hparse,himage⟩ := h
  exact ⟨r,hr,himage,.inl hparse⟩

theorem World.Filed.brought {p : Platform} {w : World} {s : String} {image : UIImage}
    (h : w.Filed p s (some image)) : w.Brought p s image := by
  obtain ⟨r,hr,hs,himage⟩ := h
  exact ⟨r,hr,himage,.inr hs⟩

theorem World.Brought.mono {p : Platform} {w v : World} {s : String} {image : UIImage}
    (h : w.Brought p s image) (hsub : w.responses⊆v.responses) : v.Brought p s image := by
  obtain ⟨r,hr,hrest⟩ := h
  exact ⟨r,hsub hr,hrest⟩

/-- Whoever finds it in the cache, an image is the own image of a string that was asked for. -/
theorem World.Brought.own {p : Platform} {w : World} {s : String} {image : UIImage}
    (h : w.Brought p s image) (hw : Coherent p w) :
    ∃v t,(v,t)∈w.calls ∧ w.Own p t (some image) := by
  obtain ⟨r,hr,himage,_⟩ := h
  obtain ⟨v,t,hcall,hown⟩ := hw.asked r hr
  exact ⟨v,t,hcall,himage ▸ hown⟩

/-- What a view shows was brought for a string that some call on that view has asked for. -/
def World.Depicts (p : Platform) (w : World) : Prop :=
  ∀view image,w.image view=some image →
    ∃(c : Nat) (s : String),w.calls[c]?=some (view,s) ∧ w.Brought p s image

theorem start_depicts (p : Platform) : World.Depicts p {} := by
  intro view image h
  contradiction

theorem step_depicts (p : Platform) (w v : World) (e : Event) (hw : Coherent p w)
    (hd : w.Depicts p) (h : w.step p e=some v) : v.Depicts p := by
  have keep (n : Nat) (image : UIImage) (hn : w.image n=some image) :
      ∃(c : Nat) (s : String),v.calls[c]?=some (n,s) ∧ v.Brought p s image := by
    obtain ⟨c,s,hc,hown⟩ := hd n image hn
    exact ⟨c,s,step_calls p w v e h c (n,s) hc,hown.mono (step_responses p w v e h)⟩
  intro n image hn
  rcases step_cases p w v e h with ⟨view,s,rfl,rfl⟩ | ⟨k,t,data,error,rfl,_,rfl⟩ | ⟨k,a,rfl,ha,rfl⟩
  · by_cases hview : view=n
    · subst hview
      cases hcache : w.cached p s with
      | none =>
        have hsame : (w.loadImage p view s).image view=w.image view := by
          rcases loadImage_cases p w view s with ⟨_,hhit,_⟩ | ⟨_,_,hl⟩ | ⟨_,_,_,hl⟩
          · rw [hcache] at hhit
            contradiction
          · rw [hl]
          · rw [hl]
        exact keep view image (hsame ▸ hn)
      | some cached =>
        have himage := loadImage_image p w view s cached hcache
        rw [himage] at hn
        cases hn
        refine ⟨w.calls.length,s,?_,?_⟩
        · rw [(loadImage_rest p w view s).1]
          simp
        · exact (hw.filed s image hcache).brought.mono (step_responses p w _ _ h)
    · rw [loadImage_image_other p w n view s hview] at hn
      exact keep n image hn
  · exact keep n image hn
  · by_cases hview : n=a.view
    · subst hview
      have himage : a.image=some image := by
        have hset : (w.runPosted k a).image a.view=a.image := Function.update_self ..
        exact hset.symm.trans hn
      obtain ⟨s,hs,hown⟩ := hw.posted_own a (List.mem_of_getElem? ha)
      rw [himage] at hown
      exact ⟨a.call,s,hs,hown.brought⟩
    · have hsame : (w.runPosted k a).image n=w.image n := Function.update_of_ne hview ..
      exact keep n image (hsame ▸ hn)

/-- When all data that come for a string, or one that is the same to Swift, decode to the image that
the cache has for it, no later call with the string downloads: each assigns that image at once. -/
theorem no_second_download (p : Platform) (pre mid : List Event) (before w : World) (s : String)
    (image : UIImage) (hpre : (machine p).run {} pre=some before)
    (hcached : before.cached p s=some image) (h : (machine p).run before mid=some w)
    (hsame : ∀r∈w.responses,p.normal r.url.absoluteString=p.normal s →
      p.image r.data=some image) :
    w.cached p s=some image ∧ ∀view,(w.loadImage p view s).tasks=w.tasks ∧
      (w.loadImage p view s).image view=some image := by
  have hwhole : (machine p).run {} (pre++mid)=some w := by
    rw [Machine.run_append,hpre]
    exact h
  have hsub : before.responses⊆w.responses := by
    apply (machine p).run_relates (fun u v => u.responses⊆v.responses)
      (fun _ => List.Subset.refl _) (fun _ _ _ => List.Subset.trans) _ before w mid h
    intro u e v hstep
    exact step_responses p u v e hstep
  have hcache : w.cached p s=some image := by
    rw [run_remembered p _ before hpre s] at hcached
    obtain ⟨r,hr,_⟩ := Option.bind_eq_some_iff.mp hcached
    obtain ⟨hmem,hs⟩ := mem_of_lastResponse p before s r hr
    rw [run_remembered p _ w hwhole s,World.remembered]
    cases hlast : w.lastResponse p s with
    | none =>
      rw [World.lastResponse,List.getLast?_eq_none_iff,List.filter_eq_nil_iff] at hlast
      exact absurd (by simpa using hs) (hlast r (hsub hmem))
    | some t =>
      obtain ⟨ht,hts⟩ := mem_of_lastResponse p w s t hlast
      exact hsame t ht hts
  refine ⟨hcache,?_⟩
  intro view
  refine ⟨?_,loadImage_image p w view s image hcache⟩
  simp [World.loadImage,UIImageView.loadImage,hcache]

theorem no_second_download_loadedTwice :
    ∃before w,(machine .plain).run {} (loadedTwice.take 3)=some before ∧
      (machine .plain).run before (loadedTwice.drop 3)=some w ∧
      w.cached .plain "https://i/1"=some {pixels := [7]} := by
  refine ⟨_,_,rfl,rfl,?_⟩
  exact (no_second_download .plain (loadedTwice.take 3) (loadedTwice.drop 3) _ _ "https://i/1"
    {pixels := [7]} rfl rfl rfl (by decide)).1

end ShareImage.Images
