import ShareImage.Images.Stale

namespace ShareImage.Images

open Framework

/-- The image that a successful network load of the string would produce, when `bytes` are what
the URLs serve. -/
def slowPath (p : Platform) (bytes : URL → Data) (urlString : String) : Option UIImage :=
  (p.parse urlString).bind fun url => p.image (bytes url)

theorem World.Own.slowPath {p : Platform} {w : World} {s : String} {image : UIImage}
    (h : w.Own p s (some image)) (bytes : URL → Data)
    (hbytes : ∀r∈w.responses,p.image r.data≠none → r.data=bytes r.url) :
    slowPath p bytes s=some image := by
  obtain ⟨r,hr,hparse,himage⟩ := h
  have hdata : r.data=bytes r.url := hbytes r hr (by simp [himage])
  rw [Images.slowPath,hparse,Option.bind_some,←hdata]
  exact himage

/-- What a hit assigns is what the slow path gives for the normal form of the string, and so for the
string, where both denote the same. -/
theorem hit_assigns {p : Platform} {w : World} (hw : Coherent p w) (bytes : URL → Data)
    (hbytes : ∀r∈w.responses,p.image r.data≠none → r.data=bytes r.url) (view v : Nat) (s : String)
    (image : Option UIImage) (h : w.assigned p (.loadImage view s)=some (v,image)) :
    v=view ∧ image≠none ∧ image=slowPath p bytes (p.normal s) ∧
      (p.parse s=p.parse (p.normal s) → image=slowPath p bytes s) := by
  obtain ⟨x,hx,heq⟩ := Option.map_eq_some_iff.mp h
  cases heq
  have hslow : slowPath p bytes (p.normal s)=some x :=
    (hw.own_normal s (some x) (hw.filed s x hx)).slowPath bytes hbytes
  refine ⟨rfl,by simp,hslow.symm,?_⟩
  intro hparse
  rw [slowPath,hparse]
  exact hslow.symm

/-- What the block of a successful download assigns is what the slow path gives for the string. -/
theorem block_assigns {p : Platform} {w : World} (hw : Coherent p w) (bytes : URL → Data)
    (hbytes : ∀r∈w.responses,p.image r.data≠none → r.data=bytes r.url) (k view : Nat)
    (image : UIImage) (h : w.assigned p (.runPosted k)=some (view,some image)) :
    ∃a s,w.posted[k]?=some a ∧ w.calls[a.call]?=some (view,s) ∧
      slowPath p bytes s=some image := by
  obtain ⟨a,ha,heq⟩ := Option.map_eq_some_iff.mp h
  obtain ⟨s,hs,hown⟩ := hw.posted_own a (List.mem_of_getElem? ha)
  have hview : a.view=view := congrArg Prod.fst heq
  have himage : a.image=some image := congrArg Prod.snd heq
  rw [himage] at hown
  exact ⟨a,s,ha,hview ▸ hs,hown.slowPath bytes hbytes⟩

/-- An entry of the cache for a string is what the slow path would give for the normal form of the
string, and comes from a response to no other URL. A hit assigns that; and the block of a successful
download assigns what the slow path gives for the string of its call. -/
theorem cache_transparent (p : Platform) (bytes : URL → Data) (es : List Event) (w : World)
    (h : (machine p).run {} es=some w)
    (hbytes : ∀r∈w.responses,p.image r.data≠none → r.data=bytes r.url) :
    (∀s image,w.cached p s=some image → slowPath p bytes (p.normal s)=some image ∧
      ∃r∈w.responses,p.parse (p.normal s)=some r.url ∧ p.image r.data=some image) ∧
    (∀view v s image,w.assigned p (.loadImage view s)=some (v,image) →
      v=view ∧ image≠none ∧ image=slowPath p bytes (p.normal s) ∧
        (p.parse s=p.parse (p.normal s) → image=slowPath p bytes s)) ∧
    ∀k view image,w.assigned p (.runPosted k)=some (view,some image) →
      ∃a s,w.posted[k]?=some a ∧ w.calls[a.call]?=some (view,s) ∧
        slowPath p bytes s=some image := by
  have hw : Coherent p w := run_coherent p es w h
  refine ⟨?_,?_,block_assigns hw bytes hbytes⟩
  · intro s image hs
    have hown : w.Own p (p.normal s) (some image) := hw.own_normal s _ (hw.filed s image hs)
    exact ⟨hown.slowPath bytes hbytes,hown⟩
  · intro view v s image
    exact hit_assigns hw bytes hbytes view v s image

/-- Two views load the same string at the same time; a third finds the image in the cache. -/
def loadedTwice : List Event :=
  [.loadImage 0 "https://i/1",.loadImage 1 "https://i/1",
    .completeTask 1 (some ⟨[7]⟩) none,.completeTask 0 (some ⟨[7]⟩) none,.runPosted 0,
    .loadImage 2 "https://i/1"]

theorem cache_transparent_loadedTwice :
    ∃w,(machine .plain).run {} loadedTwice=some w ∧
      w.cached .plain "https://i/1"=some {pixels := [7]} ∧ w.image 2=some {pixels := [7]} ∧
      slowPath .plain (fun _ => ⟨[7]⟩) "https://i/1"=some {pixels := [7]} := by
  refine ⟨_,rfl,rfl,rfl,?_⟩
  exact ((cache_transparent .plain (fun _ => ⟨[7]⟩) loadedTwice _ rfl (by decide)).1 _ _ rfl).1

/-- The Kelvin sign is the letter K to Swift, and is in no URL. -/
def kelvinSign : Char := Char.ofNat 0x212A

def withoutKelvinSign (t : String) : String :=
  String.ofList (t.toList.map fun c => if c=kelvinSign then 'K' else c)

theorem withoutKelvinSign_eq (t : String) (h : t.toList.contains kelvinSign=false) :
    withoutKelvinSign t=t := by
  have hsame : t.toList.map (fun c => if c=kelvinSign then 'K' else c)=t.toList := by
    apply (List.map_congr_left _).trans (List.map_id t.toList)
    intro c hc
    split
    · rename_i hk
      subst hk
      have hmem : t.toList.contains kelvinSign=true := List.contains_iff_mem.mpr hc
      rw [h] at hmem
      contradiction
    · rfl
  rw [withoutKelvinSign,hsame,String.ofList_toList]

def kelvin : Platform := {Platform.plain with
  parse := fun t => if t="" || t.toList.contains kelvinSign then none else some ⟨t⟩
  parse_absoluteString := by
    intro t url h
    split at h
    · contradiction
    · rename_i ht
      cases h
      exact if_neg ht
  normal := withoutKelvinSign
  normal_absoluteString := by
    intro t url h
    split at h
    · contradiction
    · rename_i ht
      cases h
      exact withoutKelvinSign_eq t (by simp_all)}

/-- After a load of a URL with the letter K, the cache has an entry for a string that is no URL. -/
theorem not_cache_transparent :
    ¬∀(p : Platform) (bytes : URL → Data) (es : List Event) (w : World),
      (machine p).run {} es=some w →
      (∀r∈w.responses,p.image r.data≠none → r.data=bytes r.url) →
      ∀s image,w.cached p s=some image → slowPath p bytes s=some image ∧
        ∃r∈w.responses,p.parse s=some r.url ∧ p.image r.data=some image := by
  intro h
  have hslow := (h kelvin (fun _ => ⟨[7]⟩)
    [.loadImage 0 "https://i/K",.completeTask 0 (some ⟨[7]⟩) none] _ rfl (by decide)
    "https://i/\u212A" {pixels := [7]} rfl).1
  exact absurd hslow (by decide)

end ShareImage.Images
