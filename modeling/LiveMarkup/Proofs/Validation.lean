import LiveMarkup.Proofs.LoneElements
import LiveMarkup.Proofs.Success

/-!
What the validation of a configuration is worth. A configuration serves if with it the three plainest
templates compile to what they are meant for and render: a slot in text, a slot for an attribute and a
slot in the start tag of an outlet. Validation lets names through with which one of them does not: a tag
that does not start with a letter is no tag for tokenizer and parser, one with a capital is never equal
to the name that the tokenizer has in small letters, and some characters end the name of an attribute.
Beyond that, every configuration that passes serves.

Main statement: `Live.Render.validated_serves_iff`.
-/
namespace LiveMarkup

namespace Template

open Markup

/-! Templates of two chunks. -/

/-- The shape of a template with one slot hangs on what the slot behind the first chunk is for. -/
theorem parse_pair (config : Config) (n : Nat) {a b : String} {t : Token}
    (token : (((Scan.start n).feed a.toList).slotToken config a).1 = t) :
    ∃ r, (Shape.parse config n [a, b]).1 =
      match place config 0 r t with
      | .ok p => .ok { Shape.add ⟨t.html, [], .empty⟩ 0 p with html := t.html ++ p.insertion ++ b }
      | .error fault => .error (.at config t.html fault) := by
  let s := (((Scan.start n).feed a.toList).slotToken config a).2.nextChunk.feed b.toList
  refine ⟨⟨s.nextRef⟩, ?_⟩
  have tokens : tokenize config n [a, b] = ([t, s.token b], s.nextRef) := by
    have first : (Scan.start n).nextChunk = Scan.start n := rfl
    simp only [tokenize, Scan.tokens, first, token, s]
  have empty : "" ++ t.html = t.html := String.empty_append
  simp only [Shape.parse, tokens, Shape.ofTokens, Shape.build, Shape.empty, empty, List.length_nil]
  cases place config 0 ⟨s.nextRef⟩ t with
  | ok p => rfl
  | error fault => rfl

/-- A template with one slot, which is recorded nowhere, compiles to the fragment of its markup. -/
theorem compile_pair {config : Config} {n : Nat} {a b : String} {t : Token} {p : Ref → Placement}
    (token : (((Scan.start n).feed a.toList).slotToken config a).1 = t)
    (placed : ∀ r, place config 0 r t = .ok (p r)) (plain : ∀ r, (p r).recorded = none) :
    ∃ r, ∀ fragment, parse (t.html ++ (p r).insertion ++ b) = .ok fragment →
      (Descriptor.compile config n [a, b]).1 =
        .ok ⟨fragment, t.html ++ (p r).insertion ++ b, [(p r).slot], .empty, config⟩ := by
  obtain ⟨r, shape⟩ := parse_pair config n (b := b) token
  refine ⟨r, fun fragment read => ?_⟩
  rw [placed r] at shape
  simp [Descriptor.compile, Descriptor.compileEdited, shape, Except.bind, Descriptor.ofShape, read,
    Shape.add, plain, Ordered.get?, Ordered.find?, Ordered.empty, Ordered.insert, Ordered.put,
    allPrograms, Ordered.isEmpty]

/-- The token of a chunk that ends in text. -/
theorem slotToken_text (config : Config) {s : Scan} (place : s.place = .outer) (chunk : String) :
    (s.slotToken config chunk).1 = s.token chunk := by
  have outside : Place.isInsideTag .outer = false := by decide
  simp [Scan.slotToken, Scan.atSlot, Scan.markerAt?, place, outside]

/-- The slot at the end of text is an outlet. -/
theorem place_text (config : Config) {s : Scan} (place : s.place = .outer) (chunk : String) (r : Ref) :
    Template.place config 0 r (s.token chunk) = .ok ⟨.node r, outlet config r, none⟩ := by
  simp [Template.place, Scan.token, place]

/-- The token of a chunk that ends in the first start tag, behind its name: the marker is put right
behind the name. -/
theorem slotToken_named (config : Config) {n : Nat} {tag : String} {s : Scan}
    (inside : s.atSlot.place.isInsideTag = true) (ref : s.ref = some ⟨n⟩) (unmarked : s.marked = false)
    (nameEnd : s.nameEnd = some (tag.toList.length + 1)) (more : String) :
    (s.slotToken config ("<" ++ tag ++ more)).1 =
      s.atSlot.token ("<" ++ tag ++ marker config ⟨n⟩ ++ more) := by
  have alike := Stage.alike_atSlot s
  have chars : ("<" ++ tag ++ more).toList = ('<' :: tag.toList) ++ more.toList := by simp
  have length : tag.toList.length + 1 = ('<' :: tag.toList).length := by simp
  have html : String.ofList ('<' :: tag.toList) ++ marker config ⟨n⟩ ++ String.ofList more.toList =
      "<" ++ tag ++ marker config ⟨n⟩ ++ more := by
    apply String.toList_inj.1
    simp
  simp only [Scan.slotToken, Scan.markerAt?, inside, alike.marked, unmarked, Bool.not_false,
    Bool.and_true, if_true, alike.nameEnd, nameEnd, alike.ref, ref, chars]
  rw [length, List.take_left, List.drop_left, html]

/-- The slot behind the name of an outlet and a blank is for a component, if the tokenizer's name of the
outlet is the configured one. -/
theorem place_component {config : Config} {n read hyphens : Nat} {tag : String}
    (same : Text.lowercase tag = config.outletTag) (r : Ref) (html : String) :
    Template.place config 0 r ((Scan.named n tag read hyphens).token html) =
      .ok ⟨.component ⟨n⟩, "", none⟩ := by
  have inside : Place.isInsideTag .tagInner = true := by decide
  simp [Template.place, Scan.token, Scan.named, same, inside]

/-- Otherwise nothing may stand there. -/
theorem place_stray {config : Config} {n read hyphens : Nat} {tag : String}
    (other : Text.lowercase tag ≠ config.outletTag) (r : Ref) (html : String) :
    Template.place config 0 r ((Scan.named n tag read hyphens).token html) =
      .error (.unexpectedSlot 0 .tagInner) := by
  have inside : Place.isInsideTag .tagInner = true := by decide
  have outside : Place.isValue .tagInner = false := by decide
  simp [Template.place, Scan.token, Scan.named, other, inside, outside]

/-- The slot behind the name of an attribute and an equals sign is for that attribute. -/
theorem place_attribute {config : Config} {n : Nat} {s : Scan} {name : String}
    (place : s.place = .unquoted) (ref : s.ref = some ⟨n⟩) (attr : s.attr = name)
    (plain : ':' ∉ name.toList) (r : Ref) (html : String) :
    Template.place config 0 r (s.token html) = .ok ⟨.attr name .none ⟨n⟩, "\x22\x22", none⟩ := by
  have inside : Place.isInsideTag .unquoted = true := by decide
  have value : Place.isValue .unquoted = true := by decide
  simp [Template.place, Scan.token, place, ref, attr, inside, value, placeValue, cutAt?_plain plain,
    Quote.ofPlace]

/-! The three templates. -/

/-- The fragment of a template that is one element which holds nothing, between texts. -/
def lone (before : String) (tag : String) (attributes : Attributes) (after : String) : List Tree :=
  textTrees before.toList ++
    .element (Text.lowercase tag) attributes [] :: textTrees after.toList

/-- In such a fragment one element carries the marker, if its attributes have it. -/
theorem elementsWithAll_lone {before tag after mark value : String} {attributes : Attributes}
    (carries : attributes.value? mark = some value) :
    elementsWithAll mark value (lone before tag attributes after) = [attributes] := by
  unfold lone textTrees
  split <;> split <;> simp [elementsWithAll, Tree.elementsWith, carries]

theorem hollowAll_lone (before tag : String) (attributes : Attributes) (after : String) :
    hollowAll (fun _ => true) (lone before tag attributes after) = true := by
  unfold lone textTrees
  split <;> split <;> simp [hollowAll, Tree.hollow]

/-- A template with one slot and no programs. Its element is the only one with its marker, and no element
holds anything. -/
structure Descriptor.Single (d : Descriptor) (slot : Slot) : Prop where
  slots : d.slots = [slot]
  programs : d.programs = .empty
  sole : (elementsWithAll d.config.refAttribute slot.ref.text d.fragment).length = 1
  hollow : hollowAll (fun _ => true) d.fragment = true

theorem single_lone {config : Config} {before tag after html : String} {attributes : Attributes}
    {slot : Slot} (carries : attributes.value? config.refAttribute = some slot.ref.text) :
    Descriptor.Single ⟨lone before tag attributes after, html, [slot], .empty, config⟩ slot where
  slots := rfl
  programs := rfl
  sole := congrArg List.length (elementsWithAll_lone carries)
  hollow := hollowAll_lone before tag attributes after

section
variable {config : Config} (nonempty : config.refAttribute.toList ≠ [])
  (readable : ∀ c ∈ config.refAttribute.toList, isAttributeChar c = true)
include nonempty readable

omit nonempty readable in
/-- The marker ends the name of the tag that it stands behind. -/
theorem head_marker (r : Ref) (s : List Char) :
    ∀ c ∈ ((marker config r).toList ++ s).head?, isTagChar c = false := by
  rw [Field.toList_marker]
  rintro c ⟨⟩
  decide

/-- A slot in text compiles to an outlet. -/
theorem compile_text (isTag : IsTag config.outletTag) (n : Nat) {before after : String}
    (plain : '<' ∉ before.toList) (plain' : '<' ∉ after.toList) :
    ∃ d r, (Descriptor.compile config n [before, after]).1 = .ok d ∧ d.Single (.node r) := by
  have place : ((Scan.start n).feed before.toList).place = .outer := Scan.place_feed_text rfl plain
  obtain ⟨r, compiled⟩ := compile_pair (b := after) (slotToken_text config place before)
    (place_text config place before) fun _ => rfl
  let marked : Attributes := .set .empty config.refAttribute r.text
  refine ⟨⟨lone before config.outletTag marked after, _, _, _, _⟩, r, compiled _ ?_,
    single_lone (Attributes.value?_set_self _ _ _)⟩
  have written : before ++ outlet config r ++ after = String.ofList (before.toList ++
      ('<' :: config.outletTag.toList ++ ((marker config r).toList ++
        '>' :: (printEnd config.outletTag ++ after.toList)))) := by
    apply String.toList_inj.1
    simp [outlet, printEnd]
  have read : readAttributes .empty ((marker config r).toList ++
      '>' :: (printEnd config.outletTag ++ after.toList)) =
      .ok (.set .empty config.refAttribute r.text, false, printEnd config.outletTag ++ after.toList) := by
    rw [Field.readAttributes_mark nonempty readable]
    exact readAttributes_close _ (trimStart_of_not_blank (by decide) _)
  exact (congrArg parse written).trans
    (parse_lone isTag.isTagName plain plain' (head_marker r _) read)

/-- A slot in the start tag of an outlet compiles to one for a component. -/
theorem compile_component (isTag : IsTag config.outletTag) (n : Nat) :
    ∃ d, (Descriptor.compile config n
        ["<" ++ config.outletTag ++ " ", "></" ++ config.outletTag ++ ">"]).1 = .ok d ∧
      d.Single (.component ⟨n⟩) := by
  obtain ⟨read, hyphens, tagged⟩ := Scan.feed_named n isTag.isTagName []
  have scanned : (Scan.start n).feed ("<" ++ config.outletTag ++ " ").toList =
      Scan.named n config.outletTag read hyphens := by
    simpa [Scan.feed] using tagged
  have token := slotToken_named config (s := Scan.named n config.outletTag read hyphens)
    (show Place.isInsideTag .tagInner = true by decide) rfl rfl rfl " "
  rw [← scanned] at token
  obtain ⟨r, compiled⟩ := compile_pair (b := "></" ++ config.outletTag ++ ">") token
    (fun r => by
      rw [scanned]
      exact place_component (lowercase_of_small isTag.small) r _) fun _ => rfl
  let marked : Attributes := .set .empty config.refAttribute (Ref.text ⟨n⟩)
  refine ⟨⟨lone "" config.outletTag marked "", _, _, _, _⟩, compiled _ ?_,
    single_lone (Attributes.value?_set_self _ _ _)⟩
  have written : "<" ++ config.outletTag ++ marker config ⟨n⟩ ++ " " ++ "" ++
      ("></" ++ config.outletTag ++ ">") = String.ofList ("".toList ++
      ('<' :: config.outletTag.toList ++ ((marker config ⟨n⟩).toList ++
        ' ' :: '>' :: (printEnd config.outletTag ++ "".toList)))) := by
    apply String.toList_inj.1
    simp [printEnd]
  have read : readAttributes .empty ((marker config ⟨n⟩).toList ++
      ' ' :: '>' :: (printEnd config.outletTag ++ "".toList)) =
      .ok (.set .empty config.refAttribute (Ref.text ⟨n⟩), false,
        printEnd config.outletTag ++ "".toList) := by
    rw [Field.readAttributes_mark nonempty readable]
    refine readAttributes_close _ ?_
    rw [trimStart_space]
    exact trimStart_of_not_blank (by decide) _
  exact (congrArg parse written).trans
    (parse_lone isTag.isTagName (by simp) (by simp) (head_marker _ _) read)

/-- A slot in place of the value of an attribute compiles to that attribute. -/
theorem compile_attribute (n : Nat) {tag name : String} (isTag : IsTagName tag) (isKey : IsKey name)
    (plain : ':' ∉ name.toList) (other : Text.lowercase name ≠ Text.lowercase config.refAttribute) :
    ∃ d, (Descriptor.compile config n
        ["<" ++ tag ++ " " ++ name ++ "=", "></" ++ tag ++ ">"]).1 = .ok d ∧
      d.Single (.attr name .none ⟨n⟩) := by
  obtain ⟨_, _, tagged⟩ := Scan.feed_named n isTag (name.toList ++ ['='])
  obtain ⟨read, hyphens, named⟩ := Scan.feed_key (s := Scan.named n tag _ _) rfl isKey
  let s : Scan := { Scan.named n tag read hyphens with place := .beforeValue, attr := name }
  have chunk : "<" ++ tag ++ " " ++ name ++ "=" = "<" ++ tag ++ (" " ++ name ++ "=") := by
    simp only [String.append_assoc]
  have scanned : (Scan.start n).feed ("<" ++ tag ++ (" " ++ name ++ "=")).toList = s := by
    have chars : ("<" ++ tag ++ (" " ++ name ++ "=")).toList =
        '<' :: tag.toList ++ ' ' :: (name.toList ++ ['=']) := by simp
    rw [chars, tagged, named]
    rfl
  have inside : s.atSlot.place.isInsideTag = true := by
    have : Place.isInsideTag .unquoted = true := by decide
    simpa [s, Scan.atSlot] using this
  have token := slotToken_named config inside rfl rfl rfl (" " ++ name ++ "=")
  rw [← scanned] at token
  obtain ⟨r, compiled⟩ := compile_pair (b := "></" ++ tag ++ ">") token
    (place_attribute (by rw [scanned]; rfl) (by rw [scanned]; rfl) (by rw [scanned]; rfl) plain · _)
    fun _ => rfl
  let marked : Attributes := .set .empty config.refAttribute (Ref.text ⟨n⟩)
  have absent : marked.value? name = none := Ordered.get?_insert_of_ne _ other _
  refine ⟨⟨lone "" tag (marked.set name "") "", _, _, _, _⟩,
    (congrArg (fun a => (Descriptor.compile config n [a, _]).1) chunk).trans (compiled _ ?_),
    single_lone ?_⟩
  · have written : "<" ++ tag ++ marker config ⟨n⟩ ++ (" " ++ name ++ "=") ++ "\x22\x22" ++
        ("></" ++ tag ++ ">") = String.ofList ("".toList ++ ('<' :: tag.toList ++
        ((marker config ⟨n⟩).toList ++ (' ' :: name.toList ++ '=' :: '\x22' :: [] ++
          '\x22' :: '>' :: (printEnd tag ++ "".toList))))) := by
      apply String.toList_inj.1
      simp [printEnd]
    have read : readAttributes .empty ((marker config ⟨n⟩).toList ++
        (' ' :: name.toList ++ '=' :: '\x22' :: [] ++
          '\x22' :: '>' :: (printEnd tag ++ "".toList))) =
        .ok (marked.set name "", false, printEnd tag ++ "".toList) := by
      rw [Field.readAttributes_mark nonempty readable, readAttributes_quoted _ rfl isKey.nonempty
        isKey.readable List.not_mem_nil, String.ofList_toList, decode_nil]
      have new : Attributes.has (.set .empty config.refAttribute (Ref.text ⟨n⟩)) name = false := by
        simp [Attributes.has, show Attributes.value? (.set .empty config.refAttribute
          (Ref.text ⟨n⟩)) name = none from absent]
      rw [new]
      exact readAttributes_close _ (trimStart_of_not_blank (by decide) _)
    exact (congrArg parse written).trans
      (parse_lone isTag (by simp) (by simp) (head_marker _ _) read)
  · exact (Ordered.get?_insert_of_ne _ (Ne.symm other) _).trans (Attributes.value?_set_self _ _ _)

end

end Template

namespace Live.Render
open Template (Config Slot Descriptor Ref)
open Dom (Forest)

variable {d : Descriptor} {slot : Slot} {value : TemplateValue} {c : Component} {w : World}
  {run : Runner} {r : Ref} {e p g : NodeId} {f f' : Forest}

/-! What is put into the only slot of a template. -/

/-- An element in a tree that is not mounted. It holds nothing. -/
structure Vacant (f : Forest) (e p : NodeId) : Prop where
  known : e.index < f.size
  parent : (f.get e).parent = some p
  children : (f.get e).children = []
  unmounted : (f.get e).connected = false ∧ (f.get p).connected = false

theorem Vacant.enlarged (h : Vacant f e p) (more : f.Enlarged f') : Vacant f' e p where
  known := Nat.lt_of_lt_of_le h.known more.size
  parent := (more.parent e).trans h.parent
  children := (more.children e).trans h.children
  unmounted := ⟨(more.connected e).trans h.unmounted.1, (more.connected p).trans h.unmounted.2⟩

/-- A node that is not mounted takes the place of the element, and no callback runs. -/
theorem replace_vacant (vacant : Vacant w.nodes e p) (whole : (w.nodes.get g).isFragment = false)
    (unmounted : (w.nodes.get g).connected = false) :
    Settles (Mount.replace e [g]) w fun _ _ => True := by
  refine .of_eq (Mount.replace_same vacant.unmounted.1 fun q l seated => ?_) trivial
  rw [Forest.splice_child vacant.parent] at seated
  have given : ∀ m ∈ (w.nodes.gather ([g].filter (· != e))).1, m = g := by
    intro m hm
    by_cases same : g = e
    · simp [same, Forest.gather, Forest.takeAll] at hm
    · simpa [same, Forest.gather, Forest.takeAll, Forest.takeForInsertion_other whole] using hm
  dsimp only at seated
  split at seated
  · cases seated
  · cases seated
    refine ⟨vacant.unmounted.2, fun m hm => ?_⟩
    rw [given m hm]
    exact unmounted

/-- A filled slot asks for no element. -/
abbrev Fills (x : Fitting Asked) (w : World) : Prop :=
  Settles x.run w fun answer _ => answer = .ok []

theorem fill_text (vacant : Vacant w.nodes e p) (s : String) :
    Fills (fillElement e (.node r) (.value (.string s))) w := by
  let more := w.nodes.create (.text (w.textOrEmpty (.string s)))
  have made : Settles (nodeOf (.value (.string s))).run w fun answer w' =>
      answer = .ok w.nodes.next ∧ w' = { w with nodes := more.2 } :=
    .of_eq (fun _ => rfl) ⟨rfl, rfl⟩
  refine made.run_bind ?_ fun _ _ h => nomatch h.1
  rintro n w' ⟨⟨⟩, rfl⟩
  have new : more.2.get w.nodes.next = .alone (.text (w.textOrEmpty (.string s))) :=
    Forest.get_create_next _
  refine Settles.run_lift_bind (replace_vacant (w := { w with nodes := more.2 })
    (vacant.enlarged (.create w.nodes _)) (by rw [new]; rfl) (by rw [new]; rfl)) ?_
  exact fun _ _ _ => .pure rfl

theorem fill_attribute (e : NodeId) (name : String) (s : String) :
    Fills (fillElement e (.attr name .none r) (.value (.string s))) w :=
  .of_eq (fun _ => rfl) rfl

/-- A component takes attributes, and the tree stays as it is. -/
theorem giveAttributes_enlarges (c : Component) (l : List (String × String)) :
    Settles (l.forM fun (name, value) => giveAttribute c name value) w fun _ w' =>
      w.nodes.Enlarged w'.nodes := by
  induction l generalizing w with
  | nil => exact .pure (.refl _)
  | cons a l ih =>
    have one : Settles (giveAttribute c a.1 a.2) w fun _ w' => w.nodes.Enlarged w'.nodes := by
      cases c with
      | element n => exact .modify (.mapElement n _)
      | card own n => exact .of_eq (fun _ => rfl) (.mapElement n _)
    refine one.bind fun _ w₁ first => ih.mono fun _ w₂ rest => ?_
    exact first.trans rest

theorem known_of_element {f : Forest} {n : NodeId} (element : (f.get n).element?.isSome) :
    n.index < f.size := by
  refine Nat.not_le.1 fun unknown => ?_
  rw [Forest.get_unknown unknown] at element
  cases element

theorem fill_component (vacant : Vacant w.nodes e p) (element : (w.nodes.get c.node).element?.isSome)
    (unmounted : (w.nodes.get c.node).connected = false) :
    Fills (fillElement e (.component r) (.component c)) w := by
  have whole : (w.nodes.get c.node).isFragment = false := by
    unfold Dom.Node.element? at element
    unfold Dom.Node.isFragment
    split <;> simp_all
  have known : c.node.index < w.nodes.size := known_of_element element
  have nothing : Settles (giveChildren c []) w fun _ w' => w'.nodes = w.nodes := by
    cases c with
    | element n => exact .pure rfl
    | card own n => exact .of_eq (fun _ => rfl) rfl
  refine Settles.run_lift_bind (Q := fun _ _ => True) ?_ fun _ _ _ => .pure rfl
  refine Settles.get_bind ?_
  rw [vacant.children]
  refine nothing.bind fun _ w₁ same => Settles.get_bind ?_
  refine (giveAttributes_enlarges c _).bind fun _ w₂ more => ?_
  rw [same] at more
  exact replace_vacant (vacant.enlarged more) ((more.isFragment _ known).trans whole)
    ((more.connected _).trans unmounted)

/-! Templates with one slot. -/

/-- The search in a fresh copy comes to the element of the slot. -/
theorem find_single (single : d.Single slot) (w : World) :
    ∃ e p, found d w.nodes.next slot.ref (copied w d) = some e ∧ Vacant (copied w d).nodes e p := by
  have planted := (Forest.planted w.nodes d.fragment).2
  have some : 0 < (Markup.elementsWithAll d.config.refAttribute slot.ref.text d.fragment).length := by
    rw [single.sole]
    exact Nat.one_pos
  obtain ⟨e, new, carries⟩ := planted.exists_carries some
  have known := Forest.known_of_carries carries
  obtain ⟨p, parent⟩ := Option.ne_none_iff_exists'.1 (planted.new e new known)
  have above := (planted.grown.parent e p (Nat.le_of_lt new) parent).1
  have unmounted : ∀ n : NodeId, w.nodes.size ≤ n.index →
      ((copied w d).nodes.get n).connected = false := by
    intro n hn
    refine (planted.unconnected n).trans ?_
    rw [Forest.get_unknown hn]
    rfl
  refine ⟨e, p, (planted.find_iff (Nat.le_of_eq single.sole)).2 ⟨Nat.le_of_lt new, carries⟩,
    known, parent, ?_, unmounted e (Nat.le_of_lt new), unmounted p above⟩
  unfold Forest.Carries at carries
  cases content : ((w.nodes.plantFragment d.fragment).2.get e).content with
  | element a => exact Forest.hollow_planted single.hollow e (Nat.le_of_lt new) a content rfl
  | _ =>
    rw [content] at carries
    cases carries

/-- To fill the copy is to fill the slot. -/
theorem fillAll_single (single : d.Single slot)
    (hit : found d w.nodes.next slot.ref (copied w d) = some e) :
    (fillAll d w.nodes.next [value]).run run (copied w d) =
      ((fillElement e slot value).atSlot (some 0)).run run (copied w d) := by
  have one : fillAll d w.nodes.next [value] = (fill d w.nodes.next slot value).atSlot (some 0) := by
    simp [fillAll, single.slots, single.programs, fillSlots, Ordered.empty]
  rw [one, fill, atSlot_bind]
  refine run_bind_ok ?_
  rw [atSlot_run, find_run, hit]
  rfl

/-- A rendering of one value succeeds, whatever callbacks would do. -/
def Renders (d : Descriptor) (value : TemplateValue) (w : World) : Prop :=
  ∃ nodes w', ∀ run, render d [value] run w = .ok (.ok nodes, w')

theorem renders_single (single : d.Single slot)
    (fills : ∀ e p, Vacant (copied w d).nodes e p → Fills (fillElement e slot value) (copied w d)) :
    Renders d value w := by
  obtain ⟨e, p, hit, vacant⟩ := find_single single w
  obtain ⟨answer, w₁, ran, rfl⟩ := fills e p vacant
  let left := w₁.nodes.takeForInsertion w.nodes.next
  refine ⟨left.1, { w₁ with nodes := left.2 }, fun run => ?_⟩
  rw [render, renderBy_run, fillAll_single single hit, atSlot_run, ran]
  rfl

/-- With a component for a component slot no rendering fails, even if callbacks run. -/
theorem component_never_fails (single : d.Single (.component r)) {run : Runner}
    {answer : Except RenderError (List NodeId)} {w' : World}
    (ended : render d [.component c] run w = .ok (answer, w')) : ∃ nodes, answer = .ok nodes := by
  obtain ⟨e, p, hit, -⟩ := find_single single w
  rw [render, renderBy_run, fillAll_single single hit, atSlot_run] at ended
  have lifted : (fillElement e (.component r) (.component c)).run run (copied w d) =
      (placeComponent e c run (copied w d)).bind fun q => .ok (.ok [], q.2) := by
    unfold fillElement
    dsimp only
    rw [run_liftM_bind]
    rfl
  rw [lifted] at ended
  cases placed : placeComponent e c run (copied w d) with
  | error halt =>
    rw [placed] at ended
    cases ended
  | ok q =>
    rw [placed] at ended
    cases ended
    exact ⟨_, rfl⟩

/-! Configurations. -/

/-- With a configuration that serves, a slot in text compiles to an outlet, one in place of the value of
an attribute other than the marker to that attribute, and one in the start tag of an outlet to a slot for
a component; and each takes what it is meant for. A component that is mounted makes callbacks run, so
that its rendering need not end, but it does not fail. -/
structure Serves (config : Config) : Prop where
  text : ∀ (n : Nat) (before after : String), '<' ∉ before.toList → '<' ∉ after.toList →
    ∃ d r, (Descriptor.compile config n [before, after]).1 = .ok d ∧ d.slots = [.node r] ∧
      ∀ s w, Renders d (.value (.string s)) w
  attr : ∀ (n : Nat) (tag name : String), Markup.IsTagName tag → Markup.IsKey name →
    ':' ∉ name.toList → Text.lowercase name ≠ Text.lowercase config.refAttribute →
    ∃ d r, (Descriptor.compile config n
        ["<" ++ tag ++ " " ++ name ++ "=", "></" ++ tag ++ ">"]).1 = .ok d ∧
      d.slots = [.attr name .none r] ∧ ∀ s w, Renders d (.value (.string s)) w
  component : ∀ n : Nat,
    ∃ d r, (Descriptor.compile config n
        ["<" ++ config.outletTag ++ " ", "></" ++ config.outletTag ++ ">"]).1 = .ok d ∧
      d.slots = [.component r] ∧ ∀ c w,
        (∀ run answer w', render d [.component c] run w = .ok (answer, w') →
          ∃ nodes, answer = .ok nodes) ∧
        ((w.nodes.get c.node).element?.isSome → (w.nodes.get c.node).connected = false →
          Renders d (.component c) w)

/-- Names that tokenizer and parser read whole, the tag in small letters, make a configuration serve. -/
theorem serves_of_readable {config : Config} (nonempty : config.refAttribute.toList ≠ [])
    (readable : ∀ c ∈ config.refAttribute.toList, Markup.isAttributeChar c = true)
    (isTag : Markup.IsTag config.outletTag) : Serves config where
  text n before after plain plain' := by
    obtain ⟨d, r, compiled, single⟩ := Template.compile_text nonempty readable isTag n plain plain'
    exact ⟨d, r, compiled, single.slots, fun s w =>
      renders_single single fun e p vacant => fill_text vacant s⟩
  attr n tag name tagName isKey plain other := by
    obtain ⟨d, compiled, single⟩ :=
      Template.compile_attribute nonempty readable n tagName isKey plain other
    exact ⟨d, ⟨n⟩, compiled, single.slots, fun s w =>
      renders_single single fun e _ _ => fill_attribute e name s⟩
  component n := by
    obtain ⟨d, compiled, single⟩ := Template.compile_component nonempty readable isTag n
    refine ⟨d, ⟨n⟩, compiled, single.slots, fun c w => ⟨fun run answer w' =>
      component_never_fails single, fun element unmounted => ?_⟩⟩
    have old := (Forest.planted w.nodes d.fragment).2.old c.node (known_of_element element)
    exact renders_single single fun e p vacant =>
      fill_component vacant (old ▸ element) (old ▸ unmounted)

/-! Names that do not serve. -/

theorem isAttributeChar_of_toLower {c : Char} (h : Markup.isAttributeChar c.toLower = true) :
    Markup.isAttributeChar c = true := by
  cases capital : c.isUpper with
  | false => rwa [Markup.toLower_of_not_upper capital] at h
  | true =>
    have letter := Template.isTagChar_of_isUpper capital
    have apart : ∀ d ∈ ['=', '>', '/', '\x22', '\x27'], c ≠ d := by
      have marks : ['=', '>', '/', '\x22', '\x27'].all (fun d => !Markup.isTagChar d) = true := by
        decide
      rintro d hd rfl
      have := List.all_eq_true.1 marks _ hd
      rw [letter] at this
      cases this
    simp only [List.forall_mem_cons] at apart
    simp [Markup.isAttributeChar, Template.not_blank_of_isTagChar letter, apart]

/-- A marker whose name has a character that no attribute has in markup is never found. -/
theorem not_found_of_unreadable (legible : Markup.LegibleAll d.fragment) {x : Char}
    (mem : x ∈ d.config.refAttribute.toList) (bad : Markup.isAttributeChar x = false) (w : World) :
    found d w.nodes.next r (copied w d) = none := by
  refine Option.eq_none_iff_forall_not_mem.2 fun e hit => ?_
  have planted := (Forest.planted w.nodes d.fragment).2
  obtain ⟨new, carries⟩ := planted.new_of_find hit
  have place := planted.content_getElem? new (Forest.known_of_carries carries)
  unfold Forest.Carries at carries
  cases content : ((w.nodes.plantFragment d.fragment).2.get e).content with
  | element a =>
    rw [content] at place carries
    have mem' : .element a ∈ Dom.treesContents d.fragment :=
      (List.mem_cons.1 (List.mem_of_getElem? place)).resolve_left nofun
    have value : a.attributes.value? d.config.refAttribute = some r.text := eq_of_beq carries
    have key : Text.lowercase d.config.refAttribute ∈ a.attributes.keys := by
      refine Decidable.by_contra fun absent => ?_
      rw [Markup.Attributes.value?, Ordered.get?_of_not_mem absent] at value
      cases value
    have readable := (Dom.names_of_legibleAll legible mem' _ key).readable x.toLower
      (by rw [Markup.toList_lowercase_string]; exact List.mem_map_of_mem mem)
    rw [isAttributeChar_of_toLower readable] at bad
    cases bad
  | _ =>
    rw [content] at carries
    cases carries

theorem not_serves_of_unreadable {config : Config} {x : Char}
    (mem : x ∈ config.refAttribute.toList) (bad : Markup.isAttributeChar x = false) :
    ¬ Serves config := by
  intro serves
  obtain ⟨d, r, compiled, slots, succeeds⟩ := serves.text 0 "" "" List.not_mem_nil List.not_mem_nil
  obtain ⟨s, -, read, -, same⟩ := Template.shape_of_compile compiled
  have here : d.config = config := by rw [same]
  rw [← here] at mem
  have lost := not_found_of_unreadable (r := r) (Markup.legible_of_parse read) mem bad .empty
  obtain ⟨nodes, w', ran⟩ := succeeds "" .empty
  obtain ⟨asked, w₁, filled⟩ := filled_of_renderBy (ran (exec 0))
  obtain ⟨rest, jobs⟩ : ∃ rest, jobs d [.value (.string "")] =
      .slot 0 (.node r) (.value (.string "")) :: rest := by
    unfold Render.jobs
    rw [slots]
    exact ⟨_, rfl⟩
  rw [fillAll_eq _ _ (fun _ => none) (by rw [slots]; rfl), jobs] at filled
  obtain ⟨_, _, w₂, -, done, -⟩ := carryOutAll_cons filled
  obtain ⟨e, hit⟩ := found_of_carryOut done
  cases lost.symm.trans hit

/-- What the slot behind the first of two chunks is for, if the two compile. -/
theorem placed_of_compile {config : Config} {n : Nat} {a b : String}
    (compiled : (Descriptor.compile config n [a, b]).1 = .ok d) {t : Template.Token}
    (token : (((Template.Scan.start n).feed a.toList).slotToken config a).1 = t) :
    ∃ r p, Template.place config 0 r t = .ok p ∧ d.slots = [p.slot] := by
  obtain ⟨s, parsed, -, -, same⟩ := Template.shape_of_compile compiled
  obtain ⟨r, shape⟩ := Template.parse_pair config n (b := b) token
  rw [parsed] at shape
  cases placed : Template.place config 0 r t with
  | error fault =>
    rw [placed] at shape
    cases shape
  | ok p =>
    rw [placed] at shape
    cases shape
    exact ⟨r, p, placed, by rw [same]; rfl⟩

/-- A tag with a capital is not the name that the tokenizer has. -/
theorem not_serves_of_capital {config : Config} (tagName : Markup.IsTagName config.outletTag)
    (other : Text.lowercase config.outletTag ≠ config.outletTag) : ¬ Serves config := by
  intro serves
  obtain ⟨d, r, compiled, -⟩ := serves.component 0
  obtain ⟨read, hyphens, tagged⟩ := Template.Scan.feed_named 0 tagName []
  have scanned : (Template.Scan.start 0).feed ("<" ++ config.outletTag ++ " ").toList =
      Template.Scan.named 0 config.outletTag read hyphens := by
    simpa [Template.Scan.feed] using tagged
  have token := Template.slotToken_named config
    (s := Template.Scan.named 0 config.outletTag read hyphens)
    (show Template.Place.isInsideTag .tagInner = true by decide) rfl rfl rfl " "
  rw [← scanned] at token
  obtain ⟨r', p, placed, -⟩ := placed_of_compile compiled token
  rw [scanned] at placed
  cases (Template.place_stray other r' _).symm.trans placed

/-- What does not start with a letter is no tag but text. -/
theorem not_serves_of_start {config : Config} {c : Char} {rest : List Char}
    (split : config.outletTag.toList = c :: rest) (start : Markup.isTagStart c = false)
    (mark : c ≠ '/' ∧ c ≠ '!') (plain : '<' ∉ rest) : ¬ Serves config := by
  intro serves
  obtain ⟨d, r, compiled, slots, -⟩ := serves.component 0
  have place : ((Template.Scan.start 0).feed ("<" ++ config.outletTag ++ " ").toList).place =
      .outer := by
    have chars : ("<" ++ config.outletTag ++ " ").toList = '<' :: c :: (rest ++ [' ']) := by
      simp [split]
    rw [chars, Template.Scan.feed_cons (.inl (by simp [Template.Scan.start])),
      Template.Scan.feed_cons (.inr mark.2)]
    refine Template.Scan.place_feed_text ?_ (by simpa using plain)
    simp [Template.Scan.step, Template.Scan.advance, Template.Scan.start, start, mark]
  obtain ⟨r', p, placed, slots'⟩ :=
    placed_of_compile compiled (Template.slotToken_text config place _)
  cases (Template.place_text config place _ r').symm.trans placed
  cases slots.symm.trans slots'

/-- A configuration that passes validation serves if and only if its tag starts with a letter and has no
capital, and its attribute has no character that ends the name of an attribute in markup. -/
theorem validated_serves_iff {config c : Config} (valid : config.validate = .ok c) :
    Serves c ↔ (c.outletTag.toList.head?.any Markup.isTagStart = true ∧
      ∀ x ∈ c.outletTag.toList, x.isUpper = false) ∧
        ∀ x ∈ c.refAttribute.toList, Markup.isAttributeChar x = true := by
  have checked : config = c ∧ Config.isRefAttribute c.refAttribute = true ∧
      Config.isOutletTag c.outletTag = true := by
    unfold Config.validate at valid
    split at valid
    case isTrue => cases valid
    case isFalse ref =>
      split at valid
      case isTrue => cases valid
      case isFalse tag =>
        cases valid
        exact ⟨rfl, by simpa using ref, by simpa using tag⟩
  obtain ⟨rfl, ref, tag⟩ := checked
  have nonempty : config.refAttribute.toList ≠ [] := by
    simp [Config.isRefAttribute] at ref
    simpa using ref.1
  simp only [Config.isOutletTag, Bool.and_eq_true, Bool.not_eq_true', List.all_eq_true] at tag
  obtain ⟨some, plain⟩ := tag
  obtain ⟨first, rest, split⟩ : ∃ first rest, config.outletTag.toList = first :: rest := by
    refine List.exists_cons_of_ne_nil ?_
    simpa using some
  have readable : ∀ x ∈ config.outletTag.toList, Markup.isTagChar x = true := by
    intro x hx
    simp only [Markup.isTagChar, Bool.or_eq_true] at plain ⊢
    exact (plain x hx).elim (fun h => .inl (.inl (.inl (.inl h)))) fun h => .inl (.inl (.inl (.inr h)))
  have apart : ∀ d, Markup.isTagChar d = false → d ≠ first ∧ d ∉ rest := fun d bad =>
    not_or.1 fun mem => absurd (readable d (split ▸ List.mem_cons.2 mem)) (by simp [bad])
  constructor
  · intro serves
    have start : Markup.isTagStart first = true := Decidable.by_contra fun other =>
      not_serves_of_start split (Bool.eq_false_iff.2 other)
        ⟨(apart '/' (by decide)).1.symm, (apart '!' (by decide)).1.symm⟩ (apart '<' (by decide)).2
        serves
    refine ⟨⟨by rw [split]; exact start, fun x hx => ?_⟩, fun x hx => ?_⟩
    · refine Bool.eq_false_iff.2 fun capital => ?_
      refine not_serves_of_capital ⟨⟨first, rest, split, start⟩, readable⟩ (fun same => ?_) serves
      rw [← same, Markup.toList_lowercase_string] at hx
      obtain ⟨y, -, rfl⟩ := List.mem_map.1 hx
      rw [Markup.isUpper_toLower] at capital
      cases capital
    · exact Decidable.by_contra fun bad =>
        not_serves_of_unreadable hx (Bool.eq_false_iff.2 bad) serves
  · rintro ⟨⟨start, small⟩, named⟩
    refine serves_of_readable nonempty named ⟨⟨first, rest, split, ?_⟩, readable, small⟩
    rw [split] at start
    exact start

theorem validated_serves_iff_custom :
    Config.validate ⟨"data-slot", "my-slot", 80⟩ = .ok ⟨"data-slot", "my-slot", 80⟩ ∧
      Serves ⟨"data-slot", "my-slot", 80⟩ := by
  have valid : Config.validate ⟨"data-slot", "my-slot", 80⟩ = .ok ⟨"data-slot", "my-slot", 80⟩ := by
    rfl
  have small : "my-slot".toList.all (fun x => !x.isUpper) = true := by decide
  have named : "data-slot".toList.all Markup.isAttributeChar = true := by decide
  refine ⟨valid, (validated_serves_iff valid).2 ⟨⟨by decide, fun x hx => ?_⟩, ?_⟩⟩
  · simpa using List.all_eq_true.1 small x hx
  · exact List.all_eq_true.1 named

/-- A tag with a capital passes validation, and the slot in the start tag of its outlet is refused. -/
theorem capital_refused :
    let config : Config := ⟨":ref", "X", 256⟩
    config.validate = .ok config ∧
      (Descriptor.compile config 0 ["<X ", "></X>"]).1.isOk = false ∧ ¬ Serves config := by
  intro config
  have valid : Config.validate ⟨":ref", "X", 256⟩ = .ok ⟨":ref", "X", 256⟩ := by rfl
  have refused : (Descriptor.compile config 0 ["<X ", "></X>"]).1.isOk = false := by decide +kernel
  refine ⟨valid, refused, fun serves => ?_⟩
  obtain ⟨d, r, compiled, -⟩ := serves.component 0
  rw [show ["<X ", "></X>"] = ["<" ++ config.outletTag ++ " ", "></" ++ config.outletTag ++ ">"]
    from rfl, compiled] at refused
  cases refused

end Live.Render
end LiveMarkup
