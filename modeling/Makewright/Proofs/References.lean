import Makewright.Node.Read
import Makewright.Proofs.Attributes
import Makewright.Proofs.Meeting
import Makewright.Proofs.Spelling

/-!
# References to targets

A target whose package is in normal form can be written in up to six ways, two of them only in its
own package. All of them are read as that target (`Target.parse_of_spells`). So the dependencies of
a target do not depend on how they are written: each is recorded once, in the order in which one
comes to them, and the list is refused exactly if one of them is the target itself
(`Description.readCommon_spellings`).
-/

set_option autoImplicit false

namespace Makewright

namespace Target

variable {reference current : String} {t : Target} {p n : List Char}

/-! ## Taking references apart -/

/-- A package that is written stands in front of the last colon. -/
theorem splitReference_colon (hn : ':' ∉ n) (rooted : Bool) :
    splitReference current rooted (p ++ ':' :: n) =
      if p.isEmpty && !rooted then (current.toList, n) else (p, n) := by
  rw [splitReference, Text.cutLast?_append hn]

/-- Without a colon, it stands in front of the last slash. -/
theorem splitReference_slash (hp : ':' ∉ p) (hn : ':' ∉ n) (hslash : '/' ∉ n) (rooted : Bool) :
    splitReference current rooted (p ++ '/' :: n) =
      if p.isEmpty && !rooted then (current.toList, n) else (p, n) := by
  have hnone : Text.cutLast? ':' (p ++ '/' :: n) = none := by
    apply Text.cutLast?_eq_none
    simp [hp, hn]
  rw [splitReference, hnone, Text.cutLast?_append hslash]
  rfl

theorem splitReference_bare (hn : ':' ∉ n) (hslash : '/' ∉ n) (rooted : Bool) :
    splitReference current rooted n = if !rooted then (current.toList, n) else ([], n) := by
  rw [splitReference, Text.cutLast?_eq_none hn, Text.cutLast?_eq_none hslash]
  rfl

/-- What a reference without blanks around it is read as, by what stands behind two slashes or, if
it does not start with them, by all of it. -/
theorem parse_of_split {rooted : Bool} {body : List Char}
    (htext : reference.toList = (if rooted then ['/', '/'] else []) ++ body)
    (hrelative : rooted = false → body.head? ≠ some '/') (htrim : Text.trim reference = reference)
    (hparts : splitReference current rooted body = (p, n)) (hn : n ≠ []) (hbody : body ≠ []) :
    parse reference current = (normalizePackage (String.ofList p)).map (⟨·, String.ofList n⟩) := by
  have hempty : reference.toList ≠ [] := by
    rw [htext]
    simp [hbody]
  unfold parse
  cases rooted with
  | true =>
    have hfront : Text.afterFront? ['/', '/'] reference.toList = some body := by
      rw [htext]
      rfl
    simp only [htrim, hfront, hparts]
    simp [hempty, hn]
  | false =>
    obtain ⟨c, rest, rfl⟩ := List.exists_cons_of_ne_nil hbody
    have hc : '/' ≠ c := fun h => hrelative rfl (by rw [h]; rfl)
    have hall : reference.toList = c :: rest := htext
    have hfront : Text.afterFront? ['/', '/'] (c :: rest) = none := by
      simp [Text.afterFront?, hc]
    simp only [htrim, hall, hfront, hparts]
    simp [hn]

/-! ## Spellings of one target -/

/-- A target that can be written in every way: its package is in normal form, its name is neither
empty nor are there blanks around it, and neither holds a character that a reference is cut at. -/
structure IsNameable (t : Target) : Prop where
  normal : normalizePackage t.package = .ok t.package
  package_noColon : ':' ∉ t.package.toList
  name_ne_empty : t.name ≠ ""
  name_trim : Text.trim t.name = t.name
  name_noColon : ':' ∉ t.name.toList
  name_noSlash : '/' ∉ t.name.toList

instance (t : Target) : Decidable t.IsNameable :=
  decidable_of_iff (normalizePackage t.package = .ok t.package ∧ ':' ∉ t.package.toList ∧
      t.name ≠ "" ∧ Text.trim t.name = t.name ∧ ':' ∉ t.name.toList ∧ '/' ∉ t.name.toList)
    ⟨fun h => ⟨h.1, h.2.1, h.2.2.1, h.2.2.2.1, h.2.2.2.2.1, h.2.2.2.2.2⟩,
      fun h => ⟨h.1, h.2, h.3, h.4, h.5, h.6⟩⟩

/-- The ways in which a target is written in the package `current`. -/
inductive Spells (current : String) (t : Target) : String → Prop
  | full : Spells current t ("//" ++ t.package ++ ":" ++ t.name)
  | rootedPath : Spells current t ("//" ++ t.fullPath)
  | sibling (hhere : t.package = current) : Spells current t (":" ++ t.name)
  | bare (hhere : t.package = current) : Spells current t t.name
  | colon (hpackage : t.package ≠ "") : Spells current t (t.package ++ ":" ++ t.name)
  | path (hpackage : t.package ≠ "") : Spells current t (t.package ++ "/" ++ t.name)

namespace IsNameable

theorem name_ne_nil (h : t.IsNameable) : t.name.toList ≠ [] := by
  rw [Ne, String.toList_eq_nil_iff]
  exact h.name_ne_empty

theorem isTidy (h : t.IsNameable) : Path.IsTidy t.package.toList :=
  isTidy_normalizePackage h.normal

/-- What ends in the name and does not start with a blank has no blanks around it. -/
theorem trim_eq (h : t.IsNameable) {front : List Char} (hreference : reference.toList =
    front ++ t.name.toList) (hhead : ∀ c, front.head? = some c → Text.isBlank c = false) :
    Text.trim reference = reference := by
  have hname := Text.head?_strip Text.isBlank t.name
  have hends := Text.getLast?_strip Text.isBlank t.name
  rw [← Text.trim, h.name_trim] at hname hends
  refine Text.strip_eq_self ?_ ?_
  · intro c hc
    rw [hreference] at hc
    cases front with
    | nil => exact hname c hc
    | cons first rest => exact hhead c hc
  · intro c hc
    rw [hreference, List.getLast?_append_of_ne_nil _ h.name_ne_nil] at hc
    exact hends c hc

/-- The package does not start with a blank. -/
theorem head_package (h : t.IsNameable) :
    ∀ c, t.package.toList.head? = some c → Text.isBlank c = false := by
  have hhead := Text.head?_strip Text.isBlank t.package
  rwa [← Text.trim, (normalizePackage_eq_self_iff h.normal).1 h.normal] at hhead

/-- A package that is not the root starts with neither a blank nor a slash. -/
theorem head_package_append (h : t.IsNameable) (hne : t.package ≠ "") {rest : List Char} :
    ∀ c, (t.package.toList ++ rest).head? = some c → Text.isBlank c = false ∧ c ≠ '/' := by
  intro c hc
  obtain ⟨first, others, hpackage⟩ :=
    List.exists_cons_of_ne_nil (by rwa [Ne, String.toList_eq_nil_iff] : t.package.toList ≠ [])
  rw [hpackage] at hc
  obtain rfl : first = c := Option.some.inj hc
  refine ⟨h.head_package first (by rw [hpackage]; rfl), ?_⟩
  rintro rfl
  exact h.isTidy.head?_ne (by rw [hpackage]; rfl)

end IsNameable

/-- The text is read as the target, and there are no blanks around it. -/
structure ReadsAs (reference current : String) (t : Target) : Prop where
  parse_eq : parse reference current = .ok t
  ne_empty : reference ≠ ""
  trim_eq : Text.trim reference = reference

/-- A reference that ends in the name of a target is read as the target if what stands in front of
the name is taken for its package. -/
theorem IsNameable.readsAs (h : t.IsNameable) (rooted : Bool) (front : List Char)
    (htext : reference.toList = (if rooted then ['/', '/'] else []) ++ (front ++ t.name.toList))
    (hhead : rooted = false → ∀ c, front.head? = some c → Text.isBlank c = false ∧ c ≠ '/')
    (hparts : splitReference current rooted (front ++ t.name.toList) = (p, t.name.toList))
    (hpackage : normalizePackage (String.ofList p) = .ok t.package) :
    ReadsAs reference current t := by
  have hbody : front ++ t.name.toList ≠ [] := by simp [h.name_ne_nil]
  have htrim : Text.trim reference = reference := by
    refine h.trim_eq (htext.trans (List.append_assoc _ _ _).symm) ?_
    cases rooted with
    | true =>
      rintro c hc
      obtain rfl : '/' = c := Option.some.inj hc
      decide
    | false => exact fun c hc => (hhead rfl c hc).1
  have hrelative : rooted = false → (front ++ t.name.toList).head? ≠ some '/' := by
    intro hrooted hslash
    cases front with
    | nil => exact h.name_noSlash (List.mem_of_head? hslash)
    | cons c rest => exact (hhead hrooted c rfl).2 (Option.some.inj hslash)
  refine ⟨?_, ?_, htrim⟩
  · rw [parse_of_split htext hrelative htrim hparts h.name_ne_nil hbody, hpackage,
      String.ofList_toList]
    rfl
  · rw [Ne, ← String.toList_eq_nil_iff, htext]
    simp [h.name_ne_nil]

/-- Every way of writing a target is read as the target. -/
theorem readsAs_of_spells (h : t.IsNameable) (hspells : Spells current t reference) :
    ReadsAs reference current t := by
  have hroot : normalizePackage (String.ofList []) = .ok "" := rfl
  have hnormal : normalizePackage (String.ofList t.package.toList) = .ok t.package := by
    rw [String.ofList_toList]
    exact h.normal
  have hnonempty : t.package ≠ "" → t.package.toList.isEmpty = false := by simp
  cases hspells with
  | full =>
    refine h.readsAs true (t.package.toList ++ [':']) (by simp) nofun ?_ hnormal
    rw [List.append_assoc, List.singleton_append, splitReference_colon h.name_noColon]
    simp
  | rootedPath =>
    by_cases hpackage : t.package = ""
    · refine h.readsAs true [] (p := []) ?_ nofun ?_ (by rw [hroot, hpackage])
      · simp [fullPath, hpackage]
      · rw [List.nil_append, splitReference_bare h.name_noColon h.name_noSlash]
        rfl
    · refine h.readsAs true (t.package.toList ++ ['/']) ?_ nofun ?_ hnormal
      · simp [fullPath, hpackage]
      · rw [List.append_assoc, List.singleton_append, splitReference_slash h.package_noColon
          h.name_noColon h.name_noSlash]
        simp
  | sibling hhere =>
    refine h.readsAs false [':'] (by simp) ?_ ?_ hnormal
    · rintro - c hc
      obtain rfl : ':' = c := Option.some.inj hc
      decide
    · rw [hhere]
      exact splitReference_colon (p := []) h.name_noColon false
  | bare hhere =>
    refine h.readsAs false [] (by simp) nofun ?_ hnormal
    rw [List.nil_append, splitReference_bare h.name_noColon h.name_noSlash, hhere]
    rfl
  | colon hpackage =>
    refine h.readsAs false (t.package.toList ++ [':']) (by simp)
      (fun _ => h.head_package_append hpackage) ?_ hnormal
    rw [List.append_assoc, List.singleton_append, splitReference_colon h.name_noColon,
      hnonempty hpackage]
    rfl
  | path hpackage =>
    refine h.readsAs false (t.package.toList ++ ['/']) (by simp)
      (fun _ => h.head_package_append hpackage) ?_ hnormal
    rw [List.append_assoc, List.singleton_append, splitReference_slash h.package_noColon
      h.name_noColon h.name_noSlash, hnonempty hpackage]
    rfl

end Target

namespace Description

variable {settings : Settings} {d : Description} {references : List String} {targets : List Target}

/-! ## Dependencies by references -/

/-- References are recorded one after the other, each target once, and the target itself is
refused. -/
theorem foldlM_addDependency (h : List.Forall₂
      (fun reference t => Target.parse reference d.target.package = .ok t) references targets)
    (known : Dependencies d.target) :
    (references.foldlM d.addDependency known).map Dependencies.items =
      if d.target ∈ targets then .error (d.fault "dependencies" .dependsOnItself)
      else .ok (addAllOnce known.items targets) := by
  induction h generalizing known with
  | nil => rfl
  | @cons reference t references targets hparse hrest ih =>
    rw [List.foldlM_cons, addDependency, hparse]
    by_cases hself : t = d.target
    · simp only [hself, List.mem_cons_self, if_true]
      rfl
    · have hmem : d.target ∈ t :: targets ↔ d.target ∈ targets := by
        simp [Ne.symm hself]
      simp only [dif_neg hself, hmem]
      exact ih (known.add t hself)

/-- A list of texts that have no blanks around them and hold no placeholder is read as it is. -/
theorem strings_of_plain {key : String} (h : d.valueOf key = .list (references.map .string))
    (hentries : ∀ reference ∈ references, reference ≠ "" ∧ Text.trim reference = reference)
    (hplain : ∀ reference ∈ references, ¬ ['\x7b', '\x7b'] <:+: reference.toList) :
    d.strings settings key = .ok references := by
  have hmembers : references.filterMap TextList.member? = references := by
    rw [List.filterMap_congr fun reference hreference =>
      TextList.member?_eq_self_iff.2 (hentries reference hreference), List.filterMap_some]
  rw [strings_of_list h, hmembers]
  clear h hentries hmembers
  induction references with
  | nil => rfl
  | cons reference rest ih =>
    obtain ⟨hreference, hrest⟩ := List.forall_mem_cons.1 hplain
    rw [List.mapM_cons, resolve_of_plain hreference, ih hrest]
    rfl

/-- All spellings of a target are read as the target. So however the dependencies of a target are
written, each is recorded once, in the order in which one comes to them, and the list is refused
exactly if one of them is the target itself. -/
theorem readCommon_spellings :
    (∀ (t : Target) (current reference : String), t.IsNameable →
      Target.Spells current t reference → Target.parse reference current = .ok t) ∧
    ∀ (settings : Settings) (d : Description) (allowed references : List String)
      (targets : List Target),
      d.valueOf "dependencies" = .list (references.map .string) →
      List.Forall₂ (fun reference t => t.IsNameable ∧ Target.Spells d.target.package t reference)
        references targets →
      (∀ reference ∈ references, ¬ ['\x7b', '\x7b'] <:+: reference.toList) →
        ((d.readCommon settings allowed).map Dependencies.items = d.checkKnown allowed >>= fun _ =>
          if d.target ∈ targets then .error (d.fault "dependencies" .dependsOnItself)
          else .ok (distinct targets)) ∧
        (distinct targets).Nodup ∧ (∀ t, t ∈ distinct targets ↔ t ∈ targets) ∧
        (distinct targets).Pairwise (MeetsFirst targets) := by
  refine ⟨fun t current reference h hspells => (Target.readsAs_of_spells h hspells).parse_eq, ?_⟩
  intro settings d allowed references targets hvalue hspells hplain
  have hreads : List.Forall₂ (fun reference t =>
      Target.ReadsAs reference d.target.package t) references targets :=
    hspells.imp fun _ _ h => Target.readsAs_of_spells h.1 h.2
  obtain ⟨hentries, hparses⟩ := (List.forall₂_and_left references targets).1
    (hreads.imp fun _ _ h => ⟨(⟨h.ne_empty, h.trim_eq⟩ : _ ≠ "" ∧ Text.trim _ = _), h.parse_eq⟩)
  have hfold := foldlM_addDependency hparses .none
  refine ⟨?_, nodup_distinct targets, fun _ => mem_distinct, pairwise_distinct targets⟩
  unfold readCommon dependencies
  rw [strings_of_plain hvalue hentries hplain]
  cases d.checkKnown allowed with
  | error e => rfl
  | ok known => exact hfold

/-- A point that depends on an area next to it and on a line in another package, both written in
several ways. -/
def spelledDescription : Description :=
  ⟨"cc_library", ⟨"shapes/plane", "point"⟩,
    [(.string "dependencies", .list ([":area", "//shapes/line:line", "area", "shapes/line/line",
      "//shapes/plane/area", "shapes/plane:area", "shapes/line:line"].map .string))], none⟩

theorem readCommon_spellings_sample :
    (spelledDescription.readCommon plainSettings commonAttributes).map Dependencies.items =
        .ok [⟨"shapes/plane", "area"⟩, ⟨"shapes/line", "line"⟩] ∧
      Target.parse "shapes/line/line" "shapes/plane" = .ok ⟨"shapes/line", "line"⟩ := by
  have harea : (⟨"shapes/plane", "area"⟩ : Target).IsNameable := by decide +kernel
  have hline : (⟨"shapes/line", "line"⟩ : Target).IsNameable := by decide +kernel
  obtain ⟨hparse, hread⟩ := readCommon_spellings
  constructor
  · obtain ⟨hitems, -⟩ := hread plainSettings spelledDescription commonAttributes _
      [⟨"shapes/plane", "area"⟩, ⟨"shapes/line", "line"⟩, ⟨"shapes/plane", "area"⟩,
        ⟨"shapes/line", "line"⟩, ⟨"shapes/plane", "area"⟩, ⟨"shapes/plane", "area"⟩,
        ⟨"shapes/line", "line"⟩] rfl
      (.cons ⟨harea, .sibling rfl⟩ (.cons ⟨hline, .full⟩ (.cons ⟨harea, .bare rfl⟩
        (.cons ⟨hline, .path (by decide)⟩ (.cons ⟨harea, .rootedPath⟩ (.cons
          ⟨harea, .colon (by decide)⟩ (.cons ⟨hline, .colon (by decide)⟩ .nil)))))))
      (by decide +kernel)
    rw [hitems]
    rfl
  · exact hparse _ _ _ hline (.path (by decide))

end Description

end Makewright
