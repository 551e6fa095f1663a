import Makewright.Proofs.Fetch.Calls
import Makewright.Proofs.Generation.Rendering
import Makewright.Proofs.Graph.Loading
import Makewright.Proofs.Target

/-!
# Identifiers of remote sources

A package with remote sources names a repository and perhaps a revision, and the fetcher is asked
for both under one identifier, with a number sign between them. A fetcher for repositories cuts the
identifier at its first number sign. What it gets back is what the package named exactly if the
address of the repository holds no number sign (`Loading.readNode_asks`).
-/

set_option autoImplicit false

namespace Makewright

/-! ## Writing an identifier and taking it apart -/

namespace Identifier

variable {url : String} {revision : Option String}

/-- A text with neither blanks around it nor nothing in it. -/
structure IsTrimmed (text : String) : Prop where
  nonempty : text ≠ ""
  trim_eq : Text.trim text = text

/-- Without a number sign, an identifier is the address of a repository. -/
theorem parse_of_notMem {text : String} (h : '#' ∉ text.toList) :
    parse text = ⟨Text.trim text, none⟩ := by
  rw [parse, Text.cutFirst?_eq_none h]

/-- The revision is what stands behind the first number sign. -/
theorem parse_append {front : String} (h : '#' ∉ front.toList) (back : String) :
    parse (front ++ "#" ++ back) =
      ⟨Text.trim front, if (Text.trim back).isEmpty then none else some (Text.trim back)⟩ := by
  have htext : (front ++ "#" ++ back).toList = front.toList ++ '#' :: back.toList := by
    simp
  rw [parse, htext, Text.cutFirst?_append h]
  simp only [String.ofList_toList]

/-- The address that an identifier names never holds a number sign. -/
theorem notMem_url_parse (text : String) : '#' ∉ (parse text).url.toList := by
  by_cases h : '#' ∈ text.toList
  · obtain ⟨front, back, hsplit, hfront⟩ := List.eq_append_cons_of_mem h
    have htext : text = String.ofList front ++ "#" ++ String.ofList back := by
      apply String.ext
      rw [hsplit]
      simp
    have hmem : '#' ∉ (String.ofList front).toList := by rwa [String.toList_ofList]
    rw [htext, parse_append hmem]
    exact fun hurl => hmem (Text.mem_of_mem_trim hurl)
  · rw [parse_of_notMem h]
    exact fun hurl => h (Text.mem_of_mem_trim hurl)

/-- An identifier is taken apart into what it was made of if there is one number sign at most in
front of the revision. -/
theorem parse_remoteIdentifier (hurl : IsTrimmed url) (hrevision : ∀ r ∈ revision, IsTrimmed r) :
    parse (Description.remoteIdentifier url revision) = ⟨url, revision⟩ ↔ '#' ∉ url.toList := by
  constructor
  · intro h
    have hnone := notMem_url_parse (Description.remoteIdentifier url revision)
    rwa [h] at hnone
  · intro h
    cases revision with
    | none =>
      rw [Description.remoteIdentifier, parse_of_notMem h, hurl.trim_eq]
    | some r =>
      obtain ⟨hnonempty, htrim⟩ := hrevision r rfl
      have hfull : r.isEmpty = false := by simpa using hnonempty
      rw [Description.remoteIdentifier, parse_append h, hurl.trim_eq, htrim, hfull]
      rfl

end Identifier

namespace Description

variable {settings : Settings} {d : Description} {key : String}

/-- A text attribute that may be missing is trimmed, and it is missing if it is blank. -/
theorem isTrimmed_of_optional {text : String} (h : d.optional settings key = .ok (some text)) :
    Identifier.IsTrimmed text := by
  rw [optional, string?] at h
  split at h
  · cases h
  · split at h
    · cases h
    · obtain ⟨raw, -, h⟩ := exists_of_bind_eq_ok h
      obtain ⟨resolved, -, h⟩ := exists_of_bind_eq_ok h
      by_cases hempty : (Text.trim resolved).isEmpty
      · simp only [hempty, if_true] at h
        cases h
      · rw [if_neg hempty] at h
        cases h
        exact ⟨by simpa using hempty, Text.trim_trim resolved⟩

/-- A package whose sources have an address waits for them. -/
theorem exists_of_readAutoconf_url {url : String} {revision : Option String} {reading : Reading}
    (h : d.readAutoconf settings = .ok reading)
    (hurl : d.optional settings "source_url" = .ok (some url))
    (hrevision : d.optional settings "source_revision" = .ok revision) :
    ∃ finish, reading = .awaiting (remoteIdentifier url revision) finish := by
  obtain ⟨dependencies, args, env, makeTargets, -, hsources⟩ := Node.findsSources_of_readAutoconf h
  cases hsources with
  | remote hsomeUrl hsomeRevision =>
    obtain rfl := Option.some.inj (Except.ok.inj (hurl.symm.trans hsomeUrl))
    obtain rfl := Except.ok.inj (hrevision.symm.trans hsomeRevision)
    exact ⟨_, rfl⟩
  | named hnone | own hnone => cases hurl.symm.trans hnone

end Description

/-! ## Asking for remote sources -/

namespace Loading

variable {ctx : Context} {d : Description} {loading : Loading} {fetcher : Fetcher}
  {identifier : String} {finish : String → Node}

/-- What becomes of the answer of a fetcher: a directory as rules name it, or an error that is told
to be about the target. -/
def handOver (ctx : Context) (target : Target) (graph : Graph) :
    EStateM.Result BuildError Session Location → EStateM.Result BuildError Loading String
  | .ok l session => .ok (workspacePath ctx.workspace.root l) ⟨graph, session⟩
  | .error e session => .error (blame target e) ⟨graph, session⟩

theorem fetchFor_eq (hfetcher : ctx.fetcher = some fetcher) :
    fetchFor ctx d identifier loading =
      handOver ctx d.target loading.graph (fetcher.fetch identifier loading.session) := by
  -- an error of the fetcher is caught and thrown again
  have hcaught : tryCatch (inPass (fetcher.fetch identifier)) (fun e => throw (blame d.target e))
      loading = match fetcher.fetch identifier loading.session with
      | .ok l session => .ok l ⟨loading.graph, session⟩
      | .error e session => .error (blame d.target e) ⟨loading.graph, session⟩ := by
    change EStateM.tryCatch _ _ _ = _
    rw [EStateM.tryCatch, inPass]
    cases fetcher.fetch identifier loading.session <;> rfl
  rw [fetchFor, hfetcher]
  change EStateM.bind (tryCatch _ _) _ loading = _
  rw [EStateM.bind, hcaught]
  cases fetcher.fetch identifier loading.session <;> rfl

/-- A node that waits for remote sources is made of the directory that they are fetched to. -/
theorem readNode_awaiting {nodeClass : NodeClass}
    (hkind : ctx.registry.find d.kind (some d.target) = .ok nodeClass)
    (hread : nodeClass.read ctx.workspace.settings d = .ok (.awaiting identifier finish)) :
    readNode ctx d loading = (finish <$> fetchFor ctx d identifier) loading := by
  have hfind : lift (ctx.registry.find d.kind (some d.target)) loading =
      .ok nodeClass loading := by
    rw [hkind]
    rfl
  have hreading : lift (nodeClass.read ctx.workspace.settings d) loading =
      .ok (.awaiting identifier finish) loading := by
    rw [hread]
    rfl
  simp only [readNode, bind, EStateM.bind, hfind, hreading]

/-- A package that names the address of its sources, and perhaps a revision of them, asks the
fetcher for both together, under one identifier. The answer is the directory of its sources, and an
error is about its target. The identifier is taken apart into this address and this revision exactly
if there is no number sign in the address. -/
theorem readNode_asks {url : String} {revision : Option String} {reading : Reading}
    (hkind : ctx.registry.find d.kind (some d.target) = .ok .autoconf)
    (hread : d.readAutoconf ctx.workspace.settings = .ok reading)
    (hurl : d.optional ctx.workspace.settings "source_url" = .ok (some url))
    (hrevision : d.optional ctx.workspace.settings "source_revision" = .ok revision)
    (hfetcher : ctx.fetcher = some fetcher) :
    (∃ finish, reading = .awaiting (Description.remoteIdentifier url revision) finish ∧
      readNode ctx d loading = match handOver ctx d.target loading.graph
          (fetcher.fetch (Description.remoteIdentifier url revision) loading.session) with
        | .ok sourceDir after => .ok (finish sourceDir) after
        | .error e after => .error e after) ∧
    (Identifier.parse (Description.remoteIdentifier url revision) = ⟨url, revision⟩ ↔
      '#' ∉ url.toList) := by
  constructor
  · obtain ⟨finish, rfl⟩ := Description.exists_of_readAutoconf_url hread hurl hrevision
    refine ⟨finish, rfl, ?_⟩
    rw [readNode_awaiting hkind hread]
    change EStateM.map finish _ loading = _
    rw [EStateM.map, fetchFor_eq hfetcher]
    cases handOver ctx d.target loading.graph
      (fetcher.fetch (Description.remoteIdentifier url revision) loading.session) <;> rfl
  · apply Identifier.parse_remoteIdentifier (Description.isTrimmed_of_optional hurl)
    intro r hr
    obtain rfl : revision = some r := hr
    exact Description.isTrimmed_of_optional hrevision

/-- The sample workspace with a fetcher for repositories. -/
def remoteContext : Context :=
  { sampleContext with fetcher := some (.repositories Fetcher.sampleBase) }

/-- A package whose sources have an address. -/
def remoteDescription (url : String) (revision : Option String) : Description :=
  ⟨"autoconf", ⟨"ext", "z"⟩,
    (.string "source_url", .string url) ::
      (revision.map fun r => (.string "source_revision", .string r)).toList, none⟩

/-- A tag of the sample repository is asked for, with blanks around both attributes. -/
theorem readNode_asks_tag :
    ∃ finish l later,
      (remoteDescription " https://example.com/zlib.git" (some "v1 ")).readAutoconf
        remoteContext.workspace.settings =
          .ok (.awaiting "https://example.com/zlib.git#v1" finish) ∧
      (Fetcher.repositories Fetcher.sampleBase).fetch "https://example.com/zlib.git#v1"
        Fetcher.sampleSession = .ok l later ∧
      readNode remoteContext (remoteDescription " https://example.com/zlib.git" (some "v1 "))
        ⟨.empty, Fetcher.sampleSession⟩ =
          .ok (finish (workspacePath remoteContext.workspace.root l)) ⟨.empty, later⟩ ∧
      Identifier.parse "https://example.com/zlib.git#v1" =
        ⟨"https://example.com/zlib.git", some "v1"⟩ := by
  obtain ⟨reading, hread⟩ : ∃ reading,
      (remoteDescription " https://example.com/zlib.git" (some "v1 ")).readAutoconf
        remoteContext.workspace.settings = .ok reading := exists_ok_of_isSome (by decide +kernel)
  obtain ⟨⟨finish, rfl, hnode⟩, hparse⟩ := @readNode_asks remoteContext _
    ⟨.empty, Fetcher.sampleSession⟩ _ "https://example.com/zlib.git" (some "v1") reading rfl hread
    (eq_ok_of_toOption (by decide +kernel)) (eq_ok_of_toOption (by decide +kernel)) rfl
  have hserved : Stateful.passes ((Fetcher.repositories Fetcher.sampleBase).fetch
      "https://example.com/zlib.git#v1") Fetcher.sampleSession (fun _ => true) = true := by
    decide +kernel
  obtain ⟨l, later, hfetch, -⟩ := Stateful.exists_of_passes hserved
  have hidentifier : Description.remoteIdentifier "https://example.com/zlib.git" (some "v1") =
      "https://example.com/zlib.git#v1" := by decide
  rw [hidentifier] at hread hnode hparse
  refine ⟨finish, l, later, hread, hfetch, ?_, hparse.2 (by decide)⟩
  rw [hnode, hfetch]
  rfl

/-- An address with a number sign in it. -/
def tangledAddress : String :=
  "https://example.com/c#tools/zlib.git"

/-- A session in which the repository is there whose address ends at the number sign, with a tag
that is named like the rest. -/
def tangledSession : Session :=
  .new (Disk.addRepository ⟨⟨[]⟩, []⟩
    (Fetcher.sampleBase.child (checkoutName "https://example.com/c"))
    ⟨["first"], some 0, [("tools/zlib.git", 0)], []⟩) []

/-- An address with a number sign in it, without a revision, is taken for another address with a
revision: the sources come from another repository. -/
theorem readNode_asks_otherwise :
    ∃ finish l later,
      (remoteDescription tangledAddress none).optional remoteContext.workspace.settings
        "source_url" = .ok (some tangledAddress) ∧
      (remoteDescription tangledAddress none).readAutoconf remoteContext.workspace.settings =
        .ok (.awaiting tangledAddress finish) ∧
      (Fetcher.repositories Fetcher.sampleBase).fetch tangledAddress tangledSession =
        .ok l later ∧
      readNode remoteContext (remoteDescription tangledAddress none) ⟨.empty, tangledSession⟩ =
        .ok (finish (workspacePath remoteContext.workspace.root l)) ⟨.empty, later⟩ ∧
      Identifier.parse tangledAddress = ⟨"https://example.com/c", some "tools/zlib.git"⟩ := by
  have hurl : (remoteDescription tangledAddress none).optional remoteContext.workspace.settings
      "source_url" = .ok (some tangledAddress) := eq_ok_of_toOption (by decide +kernel)
  have hrevision : (remoteDescription tangledAddress none).optional
      remoteContext.workspace.settings "source_revision" = .ok none :=
    eq_ok_of_toOption (by decide +kernel)
  obtain ⟨reading, hread⟩ : ∃ reading, (remoteDescription tangledAddress none).readAutoconf
      remoteContext.workspace.settings = .ok reading := exists_ok_of_isSome (by decide +kernel)
  obtain ⟨finish, rfl⟩ := Description.exists_of_readAutoconf_url hread hurl hrevision
  have hserved : Stateful.passes ((Fetcher.repositories Fetcher.sampleBase).fetch tangledAddress)
      tangledSession (fun _ => true) = true := by decide +kernel
  obtain ⟨l, later, hfetch, -⟩ := Stateful.exists_of_passes hserved
  refine ⟨finish, l, later, hurl, hread, hfetch, ?_, by decide +kernel⟩
  have hasked : fetchFor remoteContext (remoteDescription tangledAddress none) tangledAddress
      ⟨.empty, tangledSession⟩ =
        .ok (workspacePath remoteContext.workspace.root l) ⟨.empty, later⟩ := by
    have hfetcher : remoteContext.fetcher = some (.repositories Fetcher.sampleBase) := rfl
    rw [fetchFor_eq hfetcher, hfetch]
    rfl
  have hkind : remoteContext.registry.find (remoteDescription tangledAddress none).kind
      (some (remoteDescription tangledAddress none).target) = .ok .autoconf := rfl
  rw [readNode_awaiting hkind hread]
  change EStateM.map finish (fetchFor remoteContext _ tangledAddress) _ = _
  rw [EStateM.map, hasked]

end Loading

end Makewright
