import Scaffold.Proofs.Render.Nesting
import Scaffold.Proofs.Render.Steady

/-!
Chains of stub files, each of which consists of one `put` of the next and of other text. Main
statement: rendering always comes to an end within the limit of nesting, and along a chain that
limit is exact (`put_nesting`). The `put` at the limit fails before its file is looked for.
-/

namespace Scaffold

namespace Text

theorem begins_le_of_prefix {part pattern : Text} (h : part <+: pattern) (a rest : Text) :
    begins pattern a rest ≤ begins part a rest := by
  induction a with
  | nil => exact Nat.le_refl 0
  | cons c a ih =>
    rw [begins, begins]
    by_cases hp : pattern.isPrefixOf (c :: (a ++ rest)) = true
    · have hpart : part.isPrefixOf (c :: (a ++ rest)) = true :=
        List.isPrefixOf_iff_prefix.mpr (h.trans (List.isPrefixOf_iff_prefix.mp hp))
      rw [if_pos hp, if_pos hpart]
      omega
    · rw [if_neg hp]
      omega

end Text

namespace FrontMatter

theorem mem_of_mem_lines {t line : Text} {c : Char} (h : line ∈ lines t) (hc : c ∈ line) :
    c ∈ t := by
  rw [← flatten_lines t]
  exact List.mem_flatten_of_mem h hc

/-- Without an equals sign no line is a delimiter. -/
theorem split?_eq_none {t : Text} (h : '=' ∉ t) : split? t = none := by
  cases hsplit : split? t with
  | none => rfl
  | some parts =>
    obtain ⟨block, body⟩ := parts
    obtain ⟨first, inner, close, rest, hlines, hfirst, _⟩ := split?_eq_some_iff.mp hsplit
    have hmem : first ∈ lines t := hlines ▸ List.mem_cons_self ..
    have hdelimiter : Text.trimEnd (· == '\r') (Text.trimEnd (· == '\n') first) = delimiter :=
      eq_of_beq hfirst
    have hequals : '=' ∈ Text.trimEnd (· == '\r') (Text.trimEnd (· == '\n') first) := by
      rw [hdelimiter]
      exact List.mem_cons_self ..
    rw [Text.trimEnd, List.mem_reverse] at hequals
    have hinner := List.mem_reverse.mp ((List.dropWhile_sublist _).subset hequals)
    rw [Text.trimEnd, List.mem_reverse] at hinner
    have hline := List.mem_reverse.mp ((List.dropWhile_sublist _).subset hinner)
    exact absurd (mem_of_mem_lines hmem hline) h

end FrontMatter

namespace Rendered

theorem ofText_of_no_equals {t : Text} (h : '=' ∉ t) : ofText t = .ok (ofBody t) := by
  rw [ofText, FrontMatter.split?_eq_none h]

end Rendered

namespace Stub

/-! ## One link -/

section Single

variable {s : Stub} {tag : Tag}

theorem pending_single (h : Tag.scan s.source = [tag]) :
    s.pending = [Placeholder.ofTag tag] := by
  have hsorted : (Tag.scan s.source).Pairwise fun a b =>
      Text.bytes b.code ≤ Text.bytes a.code := by
    rw [h]
    exact List.pairwise_singleton _ _
  rw [pending_of_descending hsorted, h]
  exact distinct_of_not_mem [] List.not_mem_nil

/-- A source with one tag is that tag between two texts, which stay as they are. -/
theorem exists_around (h : Tag.scan s.source = [tag]) : ∃ before after,
    s.source = before ++ (tag.code ++ after) ∧
      ∀ value, Tag.splice value s.source = before ++ (value tag ++ after) := by
  obtain ⟨pieces, last, hsource, hscan, hlaid⟩ := Tag.exists_woven s.source
  obtain ⟨gap, hpieces⟩ : ∃ gap, pieces = [(gap, tag)] := by
    rw [h] at hscan
    obtain ⟨piece, hpiece, htag⟩ := List.map_eq_singleton_iff.mp hscan.symm
    exact ⟨piece.1, by rw [hpiece, ← htag]⟩
  subst hpieces
  exact ⟨gap, last, hsource, fun value => Tag.splice_woven value hsource hscan hlaid⟩

/-- The text of a lone tag stands in the tag only if there is no other beginning of a tag. -/
theorem steady_single (h : Tag.scan s.source = [tag])
    (hopening : Text.occurrences ['{', '?'] s.source = 1) (value : Tag → Text) :
    s.Steady value := by
  obtain ⟨before, after, hsource, _⟩ := exists_around h
  have hmem : tag ∈ Tag.scan s.source := h ▸ List.mem_singleton.mpr rfl
  obtain ⟨code, _, hcode, _⟩ := Tag.exists_rest_of_mem_scan hmem
  have hmost : Text.occurrences tag.code s.source ≤ 1 := by
    rw [← hopening, hcode]
    exact Text.begins_le_of_prefix (List.prefix_append ['{', '?'] code) _ _
  have hleast : 1 ≤ Text.occurrences tag.code s.source := by
    rw [hsource, Text.occurrences_append, Text.occurrences_append]
    have hne : tag.code ≠ [] := by
      rw [hcode]
      exact List.cons_ne_nil _ _
    have hself := Text.begins_self hne after
    omega
  rw [Steady, pending_single h]
  refine ⟨?_, trivial⟩
  show Text.occurrences (Placeholder.ofTag tag).code _ =
    List.countP (fun other : Tag => other.code = (Placeholder.ofTag tag).code) _
  rw [(Placeholder.ofTag_code tag).1, Tag.splice_partly_nil, h]
  simp only [List.countP_singleton, decide_true, if_true]
  omega

theorem substitute_single {call : HelperCall} {values : Bindings Text} {depth : Nat}
    (h : Tag.scan s.source = [tag]) (hopening : Text.occurrences ['{', '?'] s.source = 1) :
    s.substitute call values depth =
      (resolve call (s.caller values depth) values (Placeholder.ofTag tag)).map
        fun t => Tag.splice (fun _ => t) s.source := by
  cases hvalue : resolve call (s.caller values depth) values (Placeholder.ofTag tag) with
  | error e =>
    rw [substitute, pending_single h, List.foldlM_cons, hvalue]
    rfl
  | ok t =>
    refine substitute_of_steady (fun other hother => ?_) (steady_single h hopening _)
    rw [h] at hother
    rw [List.mem_singleton.mp hother, hvalue]

theorem substitute_of_no_tag {call : HelperCall} {values : Bindings Text} {depth : Nat}
    (h : Tag.scan s.source = []) : s.substitute call values depth = .ok s.source := by
  have hpending : s.pending = [] := by
    refine List.eq_nil_iff_forall_not_mem.mpr fun p hp => ?_
    obtain ⟨tag, htag, _⟩ := mem_pending hp
    rw [h] at htag
    cases htag
  rw [substitute, hpending]
  rfl

end Single

/-- The only tag of the source is a `put` of the named file, given by a literal and without filters;
nothing else in the source reads like the beginning of a tag, and there is no equals sign. -/
def IsLink (source name : Text) : Prop :=
  (∃ tag, Tag.scan source = [tag] ∧ (Placeholder.ofTag tag).isHelper = true ∧
    (Placeholder.ofTag tag).key = "put".toList ∧ (Placeholder.ofTag tag).filters = [] ∧
    ∃ more, (Placeholder.ofTag tag).args = .string name :: more) ∧
  Text.occurrences ['{', '?'] source = 1 ∧ '=' ∉ source

/-- What a link is replaced by, or fails with, is what its `put` gives. -/
theorem actual_link {env : Surroundings} {source name : Text} (h : IsLink source name)
    (path : Option Path) (values : Bindings Text) (depth : Nat) :
    Renderer.actual env ⟨⟨source, path, .default⟩, values, depth⟩ =
      Except.map (fun t => Tag.splice (fun _ => t) source)
        (if maxPutDepth ≤ depth then .error (.nestedTooDeep (Helper.siblingPath path name))
        else do
          let stub ← load env.read (Helper.siblingPath path name) .default
          let text ← Renderer.actual env
            ⟨stub, (⟨source, path, .default⟩ : Stub).scope values, depth + 1⟩
          let rendered ← Rendered.ofText text
          pure rendered.body) := by
  obtain ⟨⟨tag, hscan, hkind, hkey, hfilters, more, hargs⟩, hopening, _⟩ := h
  have hput : Registry.default.helpers.get? (Placeholder.ofTag tag).key = some .put := by
    rw [hkey]
    rfl
  have hvalue (c : Caller) : resolve (Helper.call env) c values (Placeholder.ofTag tag) =
      Helper.call env c (Placeholder.ofTag tag).key
        (.text name :: more.map (·.resolve c.values)) := by
    rw [resolve, baseValue, if_pos hkind, hargs, hfilters]
    exact bind_pure _
  rw [Renderer.actual, substitute_single hscan hopening, hvalue, ← Helper.callVia_actual,
    Helper.callVia_put hput]
  rfl

end Stub

/-! ## The chain -/

/-- Files of which each but the last is a link to the next. Only files that lie within the limit of
nesting have to be there. -/
structure PutChain (env : Surroundings) (n : Nat) (path : Nat → Path) (source : Nat → Text) :
    Prop where
  readable : ∀ i ≤ n, i ≤ maxPutDepth → env.read (path i) = .ok (source i)
  link : ∀ i < n, i ≤ maxPutDepth → ∃ name, Stub.IsLink (source i) name ∧
    path (i + 1) = Helper.siblingPath (some (path i)) name
  last : n ≤ maxPutDepth → Tag.scan (source n) = [] ∧ '=' ∉ source n

namespace PutChain

/-- The text of file `i` with the text of the file behind it, in the same way, in place of its tag,
through `levels` files. -/
def spliced (source : Nat → Text) : Nat → Nat → Text
  | 0, i => source i
  | levels + 1, i => Tag.splice (fun _ => spliced source levels (i + 1)) (source i)

variable {env : Surroundings} {n : Nat} {path : Nat → Path} {source : Nat → Text}

/-- Rendering file `i` of a chain, with whatever values, at its depth. -/
def visit (path : Nat → Path) (source : Nat → Text) (i : Nat) (values : Bindings Text) : Visit :=
  ⟨⟨source i, some (path i), .default⟩, values, i⟩

theorem equals_not_mem (h : PutChain env n path source) {i : Nat} (hi : i ≤ n)
    (hlimit : i ≤ maxPutDepth) : '=' ∉ source i := by
  rcases Nat.lt_or_eq_of_le hi with hlt | rfl
  · obtain ⟨_, hlink, _⟩ := h.link i hlt hlimit
    exact hlink.2.2
  · exact (h.last hlimit).2

theorem equals_not_mem_spliced (h : PutChain env n path source) (levels : Nat) {i : Nat}
    (hi : i + levels = n) (hlimit : n ≤ maxPutDepth) : '=' ∉ spliced source levels i := by
  induction levels generalizing i with
  | zero => exact h.equals_not_mem (by omega) (by omega)
  | succ levels ih =>
    obtain ⟨_, ⟨⟨tag, hscan, _⟩, _, hequals⟩, _⟩ := h.link i (by omega) (by omega)
    obtain ⟨before, after, hsource, hsplice⟩ :=
      Stub.exists_around (s := ⟨source i, none, .default⟩) hscan
    have hsource : source i = before ++ (tag.code ++ after) := hsource
    rw [spliced, hsplice]
    rw [hsource] at hequals
    simp only [List.mem_append, not_or] at hequals ⊢
    exact ⟨hequals.1, ih (by omega), hequals.2.2⟩

/-- Within the limit the files from `i` on are spliced together. -/
theorem actual_within (h : PutChain env n path source) {levels i : Nat} (hi : i + levels = n)
    (hlimit : n ≤ maxPutDepth) (values : Bindings Text) :
    Renderer.actual env (visit path source i values) = .ok (spliced source levels i) := by
  induction levels generalizing i values with
  | zero =>
    obtain rfl : i = n := hi
    exact Stub.substitute_of_no_tag (h.last hlimit).1
  | succ levels ih =>
    obtain ⟨name, hlink, hpath⟩ := h.link i (by omega) (by omega)
    have hread := h.readable (i + 1) (by omega) (by omega)
    have hnext := ih (i := i + 1) (by omega)
      ((⟨source i, some (path i), .default⟩ : Stub).scope values)
    have hplain := Rendered.ofText_of_no_equals
      (h.equals_not_mem_spliced levels (i := i + 1) (by omega) hlimit)
    rw [visit] at hnext
    rw [visit, Stub.actual_link hlink, if_neg (by omega), ← hpath, Stub.load, hread]
    simp only [mapError_ok, bind, Except.bind, pure, Except.pure, hnext, hplain]
    rfl

/-- Beyond the limit each file fails like the one at the limit. -/
theorem actual_beyond (h : PutChain env n path source) (hn : maxPutDepth < n) {levels i : Nat}
    (hi : i + levels = maxPutDepth) (values : Bindings Text) :
    Renderer.actual env (visit path source i values) =
      .error (.nestedTooDeep (path (maxPutDepth + 1))) := by
  induction levels generalizing i values with
  | zero =>
    obtain rfl : i = maxPutDepth := hi
    obtain ⟨name, hlink, hpath⟩ := h.link _ hn (Nat.le_refl _)
    rw [visit, Stub.actual_link hlink, if_pos (Nat.le_refl _), hpath]
    rfl
  | succ levels ih =>
    obtain ⟨name, hlink, hpath⟩ := h.link i (by omega) (by omega)
    have hread := h.readable (i + 1) (by omega) (by omega)
    have hnext := ih (i := i + 1) (by omega)
      ((⟨source i, some (path i), .default⟩ : Stub).scope values)
    rw [visit] at hnext
    rw [visit, Stub.actual_link hlink, if_neg (by omega), ← hpath, Stub.load, hread]
    simp only [mapError_ok, bind, Except.bind, pure, Except.pure, hnext]
    rfl

end PutChain

/-- Rendering a stub file with the built-in catalog. -/
def Stub.renderFile (env : Surroundings) (path : Path) (values : Bindings Text) :
    Except StubError Rendered := do
  let stub ← load env.read path .default
  stub.render env values

theorem PutChain.renderFile_eq {env : Surroundings} {n : Nat} {path : Nat → Path}
    {source : Nat → Text} (h : PutChain env n path source) (values : Bindings Text) :
    Stub.renderFile env (path 0) values =
      Renderer.actual env (visit path source 0 values) >>= Rendered.ofText := by
  have hread := h.readable 0 (Nat.zero_le n) (Nat.zero_le maxPutDepth)
  rw [Stub.renderFile, Stub.load, hread]
  rfl

/-- Nested renders come to an end, whatever the files contain. Rendering is the fixed point of one
level of it, which seventeen levels reach from anywhere; no stub at more than depth 16 is ever
rendered, and no stub goes on for ever. Along a chain of files the limit is exact: up to sixteen
`put` calls splice the files together, and one more fails with the path that it asks for, whether
there is a file or not. -/
theorem put_nesting (env : Surroundings) :
    Renderer.nest env (Renderer.actual env) = Renderer.actual env ∧
    (∀ (f : Renderer) (s : Stub) (values : Bindings Text),
      (Renderer.nest env)^[17] f ⟨s, values, 0⟩ = s.renderText env values) ∧
    (∀ (s : Stub) (values : Bindings Text) (w : Visit),
      Relation.ReflTransGen (Visit.DependsOn env) ⟨s, values, 0⟩ w → w.depth ≤ 16) ∧
    WellFounded (fun w v : Visit => v.DependsOn env w) ∧
    ∀ (n : Nat) (path : Nat → Path) (source : Nat → Text), PutChain env n path source →
      ∀ values : Bindings Text,
        (Stub.renderFile env (path 0) values = .ok (.ofBody (PutChain.spliced source n 0)) ↔
          n ≤ 16) ∧
        (16 < n → Stub.renderFile env (path 0) values = .error (.nestedTooDeep (path 17))) := by
  refine ⟨Renderer.nest_actual env, fun f s values => ?_, fun s values w h => ?_,
    Visit.wellFounded_dependsOn env, fun n path source h values => ?_⟩
  · exact Renderer.iterate_nest f (Nat.zero_le maxPutDepth) (Nat.lt_succ_self maxPutDepth)
  · exact Visit.depth_le h (Nat.zero_le maxPutDepth)
  · have hbeyond (hn : 16 < n) :
        Stub.renderFile env (path 0) values = .error (.nestedTooDeep (path 17)) := by
      rw [h.renderFile_eq, h.actual_beyond hn (Nat.zero_add maxPutDepth)]
      rfl
    refine ⟨⟨fun hrender => ?_, fun hn => ?_⟩, hbeyond⟩
    · by_contra hn
      rw [hbeyond (Nat.lt_of_not_le hn)] at hrender
      cases hrender
    · rw [h.renderFile_eq, h.actual_within (Nat.zero_add n) hn]
      exact Rendered.ofText_of_no_equals (h.equals_not_mem_spliced n (Nat.zero_add n) hn)

/-- Two files, of which the first consists of the second in brackets, and one that names itself. -/
private def threeFiles : Surroundings where
  read path :=
    if path = "a.stub".toList then .ok "<\x7b?put(\"b\")?\x7d>".toList
    else if path = "b.stub".toList then .ok "x".toList
    else if path = "c.stub".toList then .ok "\x7b?put(\"c\")?\x7d".toList
    else .error .missing
  now := ⟨0, 0⟩

private def pairPath (i : Nat) : Path := if i = 0 then "a.stub".toList else "b.stub".toList

private def pairSource (i : Nat) : Text :=
  if i = 0 then "<\x7b?put(\"b\")?\x7d>".toList else "x".toList

private theorem pair_chain : PutChain threeFiles 1 pairPath pairSource where
  readable := by decide
  link := by
    intro i hi _
    obtain rfl : i = 0 := by omega
    exact ⟨['b'], ⟨⟨_, rfl, rfl, rfl, rfl, [], rfl⟩, by decide, by decide⟩, by decide +kernel⟩
  last _ := by decide

private theorem loop_chain : PutChain threeFiles 17 (fun _ => "c.stub".toList)
    (fun _ => "\x7b?put(\"c\")?\x7d".toList) where
  readable _ _ _ := rfl
  link _ _ _ := ⟨['c'], ⟨⟨_, rfl, rfl, rfl, rfl, [], rfl⟩, by decide, by decide⟩, by decide +kernel⟩
  last h := absurd h (by decide)

/-- A file with another one in it, and a file in itself without end. -/
theorem put_nesting_examples :
    Stub.renderFile threeFiles "a.stub".toList [] = .ok (.ofBody "<x>".toList) ∧
    Stub.renderFile threeFiles "c.stub".toList [] = .error (.nestedTooDeep "c.stub".toList) := by
  obtain ⟨_, _, _, _, hchain⟩ := put_nesting threeFiles
  have hsplice : PutChain.spliced pairSource 1 0 = "<x>".toList := by decide
  have hpair := (hchain 1 pairPath pairSource pair_chain []).1.mpr (by decide)
  rw [hsplice] at hpair
  exact ⟨hpair, (hchain 17 _ _ loop_chain []).2 (by decide)⟩

end Scaffold
