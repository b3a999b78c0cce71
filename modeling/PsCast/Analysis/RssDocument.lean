import PsCast.Analysis.FeedText
import PsCast.Library.Scan

/-!
# What is read of an RSS document

The parsers scan the children of an element and let the last of each kind win. Of an item
(`parseItem_map`), of a channel (`foldlM_parseChannelNode`) and of an `rss` element
(`rss09xParseFeed_map`) this gives what psCast reads, and the documents on which the parser
throws or reads outside of its memory.
-/

set_option autoImplicit false

namespace PsCast

open Feedpp Library

namespace Feedpp

/-- The value of the nodes of a name. -/
def ofNode {β : Type} (name : Bytes) (ns : Option Bytes) (value : XmlNode → β) (node : XmlNode) :
    Option β :=
  if nodeIs node name ns then some (value node) else none

/-- The content of the last node of a name. -/
def textOf (X : Tools) (name : Bytes) (ns : Option Bytes) (nodes : List XmlNode) : Bytes :=
  (lastOf (ofNode name ns (getContent X)) nodes).getD []

/-- The title, the link and the description among the children of an RSS item, or of a
channel. -/
def itemOf (X : Tools) (ns : Option Bytes) (nodes : List XmlNode) : PsCast.Item :=
  { title := textOf X (lit "title") ns nodes
    link := textOf X (lit "link") ns nodes
    description := textOf X (lit "description") ns nodes }

/-- The items among some nodes. -/
def itemsOf (X : Tools) (ns : Option Bytes) (nodes : List XmlNode) : List PsCast.Item :=
  (nodes.filter fun node => nodeIs node (lit "item") ns).map fun node => itemOf X ns node.children

/-- What psCast reads of the children of an RSS channel. -/
def channelFeed (X : Tools) (ns : Option Bytes) (nodes : List XmlNode) : PsCast.Feed :=
  { title := textOf X (lit "title") ns nodes
    link := textOf X (lit "link") ns nodes
    description := textOf X (lit "description") ns nodes
    items := itemsOf X ns nodes }

/-- An author field that is read outside of its memory. -/
def BadAuthor (X : Tools) (ns : Option Bytes) (node : XmlNode) : Prop :=
  nodeIs node (lit "author") ns ∧ (getContent X node = [] ∨ getContent X node = lit ")")

instance (X : Tools) (ns : Option Bytes) (node : XmlNode) : Decidable (BadAuthor X ns node) :=
  inferInstanceAs (Decidable (_ ∧ _))

/-- An item with such an author among its children. -/
def BadItem (X : Tools) (ns : Option Bytes) (node : XmlNode) : Prop :=
  nodeIs node (lit "item") ns ∧ ∃ child ∈ node.children, BadAuthor X ns child

instance (X : Tools) (ns : Option Bytes) (node : XmlNode) : Decidable (BadItem X ns node) :=
  inferInstanceAs (Decidable (_ ∧ _))

/-- Where the search for the channel ends. -/
def isChannel (node : XmlNode) : Bool :=
  decide (node.name = none ∨ node.name = some (lit "channel"))

/-- What psCast reads of the children of an `rss` element. -/
def channelResult (X : Tools) (ns : Option Bytes) (nodes : List XmlNode) : Result PsCast.Feed :=
  match nodes.find? isChannel with
  | none => .error (.exception (lit "no RSS channel found"))
  | some channel =>
    if channel.name = none ∨ ∃ node ∈ channel.children, BadItem X ns node then .error .undefined
    else .ok (channelFeed X ns channel.children)

end Feedpp

namespace Analysis

/-! ## Names -/

section Items

variable {X : Tools} {ns : Option Bytes} {node : XmlNode}

/-- The node looked for has the name looked for. -/
theorem name_of_nodeIs {name : Bytes} {uri : Option Bytes} (h : nodeIs node name uri = true) :
    node.name = some name := by
  unfold nodeIs at h
  split at h
  · assumption
  · cases h

/-- A node has one name. -/
theorem nodeIs_of_ne {name other : Bytes} {uri uri' : Option Bytes}
    (h : nodeIs node name uri = true) (hne : name ≠ other) : nodeIs node other uri' = false := by
  have hother : node.name ≠ some other := by
    rw [name_of_nodeIs h]
    exact fun heq => hne (Option.some.inj heq)
  exact if_neg hother

/-! ## RSS items -/

/-- An author is taken apart into its address and its name. -/
theorem parseItemNode_author (h : nodeIs node (lit "author") ns = true) (s : ItemState) :
    parseItemNode X ns s node = (parseAuthor (getContent X node)).map fun field =>
      { s with it := { s.it with authorEmail := field.1, author := field.2 } } := by
  have hother : ∀ name uri, lit "author" ≠ name → nodeIs node name uri = false :=
    fun name uri hne => nodeIs_of_ne h hne
  unfold parseItemNode
  simp only [hother (lit "title") _ (by decide), hother (lit "link") _ (by decide),
    hother (lit "description") _ (by decide), hother (lit "encoded") _ (by decide),
    hother (lit "summary") _ (by decide), hother (lit "guid") _ (by decide),
    hother (lit "pubDate") _ (by decide), hother (lit "date") _ (by decide), h,
    Bool.false_eq_true, if_false, if_true]
  cases parseAuthor (getContent X node) <;> rfl

/-- Of a choice that cannot be between two successes both sides are looked at. -/
theorem ok_ite {α : Type} {c : Prop} [Decidable c] {r r' : Result α} (h : c → ∃ a, r = .ok a)
    (h' : ∃ a, r' = .ok a) : ∃ a, (if c then r else r') = .ok a := by
  by_cases hc : c
  · rw [if_pos hc]
    exact h hc
  · rwa [if_neg hc]

/-- No other child of an item fails. -/
theorem parseItemNode_other (h : nodeIs node (lit "author") ns = false) (s : ItemState) :
    ∃ s', parseItemNode X ns s node = .ok s' := by
  unfold parseItemNode
  iterate 8 refine ok_ite (fun _ => ⟨_, rfl⟩) ?_
  refine ok_ite (fun hauthor => absurd (h.symm.trans hauthor) Bool.false_ne_true) ?_
  iterate 4 refine ok_ite (fun _ => ⟨_, rfl⟩) ?_
  exact ⟨_, rfl⟩

/-- The state after a node that does not fail. -/
def itemStep (X : Tools) (ns : Option Bytes) (s : ItemState) (node : XmlNode) : ItemState :=
  match parseItemNode X ns s node with
  | .ok s => s
  | .error _ => s

/-- Only an author makes an item fail. -/
theorem parseItemNode_eq (s : ItemState) (node : XmlNode) :
    parseItemNode X ns s node =
      (if BadAuthor X ns node then some Failure.undefined else none).elim
        (.ok (itemStep X ns s node)) .error := by
  unfold itemStep
  cases hauthor : nodeIs node (lit "author") ns with
  | false =>
    have hgood : ¬ BadAuthor X ns node := by
      intro hbad
      rw [hbad.1] at hauthor
      cases hauthor
    obtain ⟨s', hs'⟩ := parseItemNode_other (X := X) hauthor s
    rw [if_neg hgood, hs']
    rfl
  | true =>
    have hbad : BadAuthor X ns node ↔
        parseAuthor (getContent X node) = .error .undefined := by
      rw [parseAuthor_eq_error_iff]
      simp only [true_and]
      exact and_iff_right hauthor
    rw [parseItemNode_author hauthor]
    cases hresult : parseAuthor (getContent X node) with
    | ok field =>
      rw [if_neg (by rw [hbad, hresult]; simp)]
      rfl
    | error failure =>
      obtain ⟨rfl, -⟩ := (parseAuthor_eq_error_iff _ _).mp hresult
      rw [if_pos (hbad.mpr hresult)]
      rfl

/-- What holds of both results of a choice. -/
theorem of_ite_ok {α : Type} {c : Prop} [Decidable c] {r r' : Result α} {p : α → Prop}
    (h : c → ∀ a, r = .ok a → p a) (h' : ¬ c → ∀ a, r' = .ok a → p a) (a : α)
    (ha : (if c then r else r') = .ok a) : p a := by
  by_cases hc : c
  · rw [if_pos hc] at ha
    exact h hc a ha
  · rw [if_neg hc] at ha
    exact h' hc a ha

/-- A node of one name is none of another. -/
theorem ofNode_of_name {β : Type} {name : Bytes} (hname : node.name = some name) (other : Bytes)
    (uri : Option Bytes) (value : XmlNode → β) (hne : name ≠ other) :
    ofNode other uri value node = none := by
  have hother : node.name ≠ some other := by
    rw [hname]
    exact fun heq => hne (Option.some.inj heq)
  have hnot : nodeIs node other uri = false := if_neg hother
  unfold ofNode
  rw [hnot]
  rfl

/-- The title, the link and the description after a node. -/
def stepItem (X : Tools) (ns : Option Bytes) (it : PsCast.Item) (node : XmlNode) : PsCast.Item :=
  { title := (ofNode (lit "title") ns (getContent X) node).getD it.title
    link := (ofNode (lit "link") ns (getContent X) node).getD it.link
    description := (ofNode (lit "description") ns (getContent X) node).getD it.description }

/-- A title replaces the one before. -/
theorem stepItem_title (h : nodeIs node (lit "title") ns = true) (it : PsCast.Item) :
    stepItem X ns it node = { it with title := getContent X node } := by
  have hname := name_of_nodeIs h
  unfold stepItem
  rw [ofNode_of_name hname (lit "link") _ _ (by decide),
    ofNode_of_name hname (lit "description") _ _ (by decide), ofNode, if_pos h]
  rfl

/-- A link replaces the one before. -/
theorem stepItem_link (h : nodeIs node (lit "link") ns = true) (it : PsCast.Item) :
    stepItem X ns it node = { it with link := getContent X node } := by
  have hname := name_of_nodeIs h
  unfold stepItem
  rw [ofNode_of_name hname (lit "title") _ _ (by decide),
    ofNode_of_name hname (lit "description") _ _ (by decide), ofNode, if_pos h]
  rfl

/-- A description replaces the one before. -/
theorem stepItem_description (h : nodeIs node (lit "description") ns = true) (it : PsCast.Item) :
    stepItem X ns it node = { it with description := getContent X node } := by
  have hname := name_of_nodeIs h
  unfold stepItem
  rw [ofNode_of_name hname (lit "title") _ _ (by decide),
    ofNode_of_name hname (lit "link") _ _ (by decide), ofNode, if_pos h]
  rfl

/-- A node of none of these names leaves them. -/
theorem stepItem_other (htitle : ¬ nodeIs node (lit "title") ns = true)
    (hlink : ¬ nodeIs node (lit "link") ns = true)
    (hdescription : ¬ nodeIs node (lit "description") ns = true) (it : PsCast.Item) :
    stepItem X ns it node = it := by
  unfold stepItem ofNode
  rw [if_neg htitle, if_neg hlink, if_neg hdescription]
  rfl

/-- The enclosures of a group are nothing that psCast reads. -/
theorem groupNode_toItem (it : Feedpp.Item) (mnode : XmlNode) :
    (groupNode X it mnode).toItem = it.toItem := by
  unfold groupNode
  split <;> rfl

/-- Of an item psCast reads three members, and each node writes at most one of them. -/
theorem parseItemNode_toItem (s : ItemState) :
    ∀ s', parseItemNode X ns s node = .ok s' → s'.it.toItem = stepItem X ns s.it.toItem node := by
  unfold parseItemNode
  refine of_ite_ok (fun h s' hs' => ?_) fun htitle => of_ite_ok (fun h s' hs' => ?_) fun hlink =>
    of_ite_ok (fun h s' hs' => ?_) fun hdescription => ?_
  · cases hs'
    rw [stepItem_title h]
    rfl
  · cases hs'
    rw [stepItem_link h]
    rfl
  · cases hs'
    rw [stepItem_description h]
    rfl
  · rw [stepItem_other htitle hlink hdescription]
    iterate 5
      refine of_ite_ok (fun _ s' hs' => ?_) fun _ => ?_
      · cases hs'
        rfl
    refine of_ite_ok (fun _ s' hs' => ?_) fun _ => ?_
    · cases hauthor : parseAuthor (getContent X node) with
      | error failure =>
        rw [hauthor] at hs'
        cases hs'
      | ok field =>
        rw [hauthor] at hs'
        cases hs'
        rfl
    iterate 3
      refine of_ite_ok (fun _ s' hs' => ?_) fun _ => ?_
      · cases hs'
        rfl
    refine of_ite_ok (fun _ s' hs' => ?_) fun _ s' hs' => ?_
    · cases hs'
      exact foldl_keep Feedpp.Item.toItem groupNode_toItem node.children s.it
    · cases hs'
      rfl

/-- A round of the loop over an item, as far as psCast reads it. -/
theorem itemStep_toItem (s : ItemState) (node : XmlNode) :
    (itemStep X ns s node).it.toItem = stepItem X ns s.it.toItem node := by
  unfold itemStep
  cases hresult : parseItemNode X ns s node with
  | ok s' => exact parseItemNode_toItem s s' hresult
  | error failure =>
    -- only an author fails, and it is none of the three
    cases hauthor : nodeIs node (lit "author") ns with
    | false =>
      obtain ⟨s', hs'⟩ := parseItemNode_other (X := X) hauthor s
      rw [hs'] at hresult
      cases hresult
    | true =>
      have hother : ∀ name, lit "author" ≠ name → ¬ nodeIs node name ns = true := by
        intro name hne
        rw [nodeIs_of_ne hauthor hne]
        exact Bool.false_ne_true
      exact (stepItem_other (hother _ (by decide)) (hother _ (by decide))
        (hother _ (by decide)) _).symm

/-- A scan that lets each node write its member ends with the last of each kind. -/
theorem foldl_stepItem {σ : Type} {step : σ → XmlNode → σ} (get : σ → PsCast.Item)
    (h : ∀ s node, get (step s node) = stepItem X ns (get s) node) (nodes : List XmlNode) {s : σ}
    (hs : get s = {}) : get (nodes.foldl step s) = itemOf X ns nodes := by
  have htitle := foldl_last (fun s => (get s).title) (ofNode (lit "title") ns (getContent X))
    (fun s node => congrArg PsCast.Item.title (h s node)) nodes s
  have hlink := foldl_last (fun s => (get s).link) (ofNode (lit "link") ns (getContent X))
    (fun s node => congrArg PsCast.Item.link (h s node)) nodes s
  have hdescription := foldl_last (fun s => (get s).description)
    (ofNode (lit "description") ns (getContent X))
    (fun s node => congrArg PsCast.Item.description (h s node)) nodes s
  rw [hs] at htitle hlink hdescription
  cases hend : get (nodes.foldl step s) with
  | mk title link description =>
    rw [hend] at htitle hlink hdescription
    exact congr (congr (congrArg PsCast.Item.mk htitle) hlink) hdescription

/-- **An item** is read unless one of its author fields is read outside of its memory. -/
theorem parseItem_map (X : Tools) (ns : Option Bytes) (node : XmlNode) :
    (parseItem X ns node).map Feedpp.Item.toItem =
      if ∃ child ∈ node.children, BadAuthor X ns child then .error .undefined
      else .ok (itemOf X ns node.children) := by
  have hscan := foldlM_check (fun child => if BadAuthor X ns child then some Failure.undefined
    else none) (itemStep X ns) parseItemNode_eq node.children {}
  rw [findSome?_ite] at hscan
  unfold parseItem
  rw [hscan]
  split
  · rfl
  · have hitem : (node.children.foldl (itemStep X ns) {}).it.toItem = itemOf X ns node.children :=
      foldl_stepItem (fun s : ItemState => s.it.toItem) itemStep_toItem node.children rfl
    rw [← hitem]
    simp only [Option.elim_none, bind, Except.bind, pure, Except.pure, Except.map]
    split <;> split <;> rfl

/-! ## RSS channels -/

/-- A scan for one name, as a filter. -/
theorem filterMap_ofNode {β : Type} (name : Bytes) (uri : Option Bytes) (value : XmlNode → β)
    (nodes : List XmlNode) :
    nodes.filterMap (ofNode name uri value) =
      (nodes.filter fun node => nodeIs node name uri).map value := by
  induction nodes with
  | nil => rfl
  | cons node nodes ih =>
    unfold ofNode at ih ⊢
    cases h : nodeIs node name uri <;> simp [h, ih]

/-- An item is parsed and appended. -/
theorem parseChannelNode_item (h : nodeIs node (lit "item") ns = true) (f : Feedpp.Feed) :
    parseChannelNode X ns f node =
      (parseItem X ns node).map fun it => { f with items := f.items ++ [it] } := by
  have hother : ∀ name, lit "item" ≠ name → nodeIs node name ns = false :=
    fun name hne => nodeIs_of_ne h hne
  unfold parseChannelNode
  simp only [hother (lit "title") (by decide), hother (lit "link") (by decide),
    hother (lit "description") (by decide), hother (lit "language") (by decide),
    hother (lit "managingEditor") (by decide), h, Bool.false_eq_true, if_false, if_true]
  cases parseItem X ns node <;> rfl

/-- No other child of a channel fails. -/
theorem parseChannelNode_other (h : nodeIs node (lit "item") ns = false) (f : Feedpp.Feed) :
    ∃ f', parseChannelNode X ns f node = .ok f' := by
  unfold parseChannelNode
  iterate 5 refine ok_ite (fun _ => ⟨_, rfl⟩) ?_
  refine ok_ite (fun hitem => absurd (h.symm.trans hitem) Bool.false_ne_true) ?_
  exact ⟨_, rfl⟩

/-- The feed after a node that does not fail. -/
def channelStep (X : Tools) (ns : Option Bytes) (f : Feedpp.Feed) (node : XmlNode) : Feedpp.Feed :=
  match parseChannelNode X ns f node with
  | .ok f => f
  | .error _ => f

/-- An item without a bad author is read. -/
theorem parseItem_eq_ok (hgood : ¬ ∃ child ∈ node.children, BadAuthor X ns child) :
    ∃ it, parseItem X ns node = .ok it ∧ it.toItem = itemOf X ns node.children := by
  have hitem := parseItem_map X ns node
  rw [if_neg hgood] at hitem
  cases hresult : parseItem X ns node with
  | error failure =>
    rw [hresult] at hitem
    cases hitem
  | ok it =>
    rw [hresult] at hitem
    exact ⟨it, rfl, Except.ok.inj hitem⟩

/-- An item with one is not. -/
theorem parseItem_eq_error (hbad : ∃ child ∈ node.children, BadAuthor X ns child) :
    parseItem X ns node = .error .undefined := by
  have hitem := parseItem_map X ns node
  rw [if_pos hbad] at hitem
  cases hresult : parseItem X ns node with
  | error failure =>
    rw [hresult] at hitem
    exact congrArg Except.error (Except.error.inj hitem)
  | ok it =>
    rw [hresult] at hitem
    cases hitem

/-- Only an item makes a channel fail. -/
theorem parseChannelNode_eq (f : Feedpp.Feed) (node : XmlNode) :
    parseChannelNode X ns f node =
      (if BadItem X ns node then some Failure.undefined else none).elim
        (.ok (channelStep X ns f node)) .error := by
  unfold channelStep
  cases hname : nodeIs node (lit "item") ns with
  | false =>
    have hgood : ¬ BadItem X ns node := by
      intro hbad
      rw [hbad.1] at hname
      cases hname
    obtain ⟨f', hf'⟩ := parseChannelNode_other (X := X) hname f
    rw [if_neg hgood, hf']
    rfl
  | true =>
    rw [parseChannelNode_item hname]
    by_cases hbad : ∃ child ∈ node.children, BadAuthor X ns child
    · rw [if_pos ⟨hname, hbad⟩, parseItem_eq_error hbad]
      rfl
    · obtain ⟨it, hit, -⟩ := parseItem_eq_ok hbad
      rw [if_neg fun h => hbad h.2, hit]
      rfl

/-- The title, the link and the description of a feed. -/
def heading (f : Feedpp.Feed) : PsCast.Item :=
  { title := f.title, link := f.link, description := f.description }

/-- A feed, by its heading, its creator and its items. -/
theorem toFeed_eq (f : Feedpp.Feed) :
    f.toFeed = { title := (heading f).title
                 description := (heading f).description
                 link := (heading f).link
                 dcCreator := f.dcCreator
                 items := f.items.map Feedpp.Item.toItem } := rfl

/-- A child that is no item changes the heading as it would that of an item. -/
theorem parseChannelNode_heading (f : Feedpp.Feed) :
    ∀ f', parseChannelNode X ns f node = .ok f' → heading f' = stepItem X ns (heading f) node := by
  unfold parseChannelNode
  refine of_ite_ok (fun h f' hf' => ?_) fun htitle => of_ite_ok (fun h f' hf' => ?_) fun hlink =>
    of_ite_ok (fun h f' hf' => ?_) fun hdescription => ?_
  · cases hf'
    rw [stepItem_title h]
    rfl
  · cases hf'
    rw [stepItem_link h]
    rfl
  · cases hf'
    rw [stepItem_description h]
    rfl
  · rw [stepItem_other htitle hlink hdescription]
    iterate 2
      refine of_ite_ok (fun _ f' hf' => ?_) fun _ => ?_
      · cases hf'
        rfl
    refine of_ite_ok (fun _ f' hf' => ?_) fun _ f' hf' => ?_
    · cases hitem : parseItem X ns node with
      | error failure =>
        rw [hitem] at hf'
        cases hf'
      | ok it =>
        rw [hitem] at hf'
        cases hf'
        rfl
    · cases hf'
      rfl

/-- A round of the loop over a channel, as far as its heading goes. -/
theorem channelStep_heading (f : Feedpp.Feed) (node : XmlNode) :
    heading (channelStep X ns f node) = stepItem X ns (heading f) node := by
  unfold channelStep
  cases hresult : parseChannelNode X ns f node with
  | ok f' => exact parseChannelNode_heading f f' hresult
  | error failure =>
    -- only an item fails, and it is none of the three
    cases hitem : nodeIs node (lit "item") ns with
    | false =>
      obtain ⟨f', hf'⟩ := parseChannelNode_other (X := X) hitem f
      rw [hf'] at hresult
      cases hresult
    | true =>
      have hother : ∀ name, lit "item" ≠ name → ¬ nodeIs node name ns = true := by
        intro name hne
        rw [nodeIs_of_ne hitem hne]
        exact Bool.false_ne_true
      exact (stepItem_other (hother _ (by decide)) (hother _ (by decide))
        (hother _ (by decide)) _).symm

/-- The items after a node. -/
theorem channelStep_items (f : Feedpp.Feed) (hgood : ¬ BadItem X ns node) :
    (channelStep X ns f node).items.map Feedpp.Item.toItem = f.items.map Feedpp.Item.toItem ++
      (ofNode (lit "item") ns (fun node => itemOf X ns node.children) node).toList := by
  unfold channelStep ofNode
  cases hitem : nodeIs node (lit "item") ns with
  | true =>
    obtain ⟨it, hit, htoItem⟩ := parseItem_eq_ok fun hbad => hgood ⟨hitem, hbad⟩
    rw [parseChannelNode_item hitem, hit, if_pos rfl]
    show (f.items ++ [it]).map Feedpp.Item.toItem =
      f.items.map Feedpp.Item.toItem ++ [itemOf X ns node.children]
    rw [← htoItem]
    exact List.map_append
  | false =>
    have hkeep : ∀ f', parseChannelNode X ns f node = .ok f' → f'.items = f.items := by
      unfold parseChannelNode
      iterate 5
        refine of_ite_ok (fun _ f' hf' => ?_) fun _ => ?_
        · cases hf'
          rfl
      refine of_ite_ok (fun h => absurd (hitem.symm.trans h) Bool.false_ne_true) fun _ f' hf' => ?_
      cases hf'
      rfl
    obtain ⟨f', hf'⟩ := parseChannelNode_other (X := X) hitem f
    rw [hf', hkeep f' hf']
    exact (List.append_nil _).symm

/-- No child of a channel is taken for the creator. -/
theorem channelStep_dcCreator (f : Feedpp.Feed) (node : XmlNode) :
    (channelStep X ns f node).dcCreator = f.dcCreator := by
  have hkeep : ∀ f', parseChannelNode X ns f node = .ok f' → f'.dcCreator = f.dcCreator := by
    unfold parseChannelNode
    iterate 5
      refine of_ite_ok (fun _ f' hf' => ?_) fun _ => ?_
      · cases hf'
        rfl
    refine of_ite_ok (fun _ f' hf' => ?_) fun _ f' hf' => ?_
    · cases hitem : parseItem X ns node with
      | error failure =>
        rw [hitem] at hf'
        cases hf'
      | ok it =>
        rw [hitem] at hf'
        cases hf'
        rfl
    · cases hf'
      rfl
  unfold channelStep
  cases hresult : parseChannelNode X ns f node with
  | ok f' => exact hkeep f' hresult
  | error failure => rfl

/-- **A channel** is read unless one of its items is not. -/
theorem foldlM_parseChannelNode (nodes : List XmlNode) (version : Version) :
    (nodes.foldlM (parseChannelNode X ns) { rssVersion := version }).map Feedpp.Feed.toFeed =
      if ∃ node ∈ nodes, BadItem X ns node then .error .undefined
      else .ok (channelFeed X ns nodes) := by
  have hscan := foldlM_check (fun node => if BadItem X ns node then some Failure.undefined
    else none) (channelStep X ns) parseChannelNode_eq nodes { rssVersion := version }
  rw [findSome?_ite] at hscan
  rw [hscan]
  by_cases hbad : ∃ node ∈ nodes, BadItem X ns node
  · rw [if_pos hbad, if_pos hbad]
    rfl
  · rw [if_neg hbad, if_neg hbad]
    have hheading : heading (nodes.foldl (channelStep X ns) { rssVersion := version }) =
        itemOf X ns nodes :=
      foldl_stepItem heading channelStep_heading nodes rfl
    have hitems : (nodes.foldl (channelStep X ns) { rssVersion := version }).items.map
        Feedpp.Item.toItem = itemsOf X ns nodes := by
      have hcollect := foldl_collect (fun f : Feedpp.Feed => f.items.map Feedpp.Item.toItem)
        (ofNode (lit "item") ns fun node => itemOf X ns node.children) nodes
        (fun f node hnode => channelStep_items f fun h => hbad ⟨node, hnode, h⟩)
        { rssVersion := version }
      rwa [filterMap_ofNode] at hcollect
    have hcreator : (nodes.foldl (channelStep X ns) { rssVersion := version }).dcCreator = [] :=
      foldl_keep Feedpp.Feed.dcCreator channelStep_dcCreator nodes _
    show Except.ok (Feedpp.Feed.toFeed _) = _
    rw [toFeed_eq, hheading, hitems, hcreator]
    rfl

/-! ## RSS documents -/

/-- The search for the channel ends at the first node that is one or has no name. -/
theorem findChannel_eq (nodes : List XmlNode) :
    findChannel nodes = match nodes.find? isChannel with
      | none => .ok none
      | some channel => if channel.name = none then .error .undefined else .ok (some channel) := by
  induction nodes with
  | nil => rfl
  | cons node nodes ih =>
    unfold findChannel
    cases hname : node.name with
    | none =>
      have hstop : isChannel node = true := by simp [isChannel, hname]
      rw [List.find?_cons, hstop]
      simp [hname]
      rfl
    | some name =>
      by_cases hchannel : name = lit "channel"
      · have hstop : isChannel node = true := by simp [isChannel, hname, hchannel]
        rw [List.find?_cons, hstop]
        simp [hname, hchannel]
        rfl
      · have hgo : isChannel node = false := by simp [isChannel, hname, hchannel]
        rw [List.find?_cons, hgo, ← ih]
        exact if_pos hchannel

/-- **The children of an `rss` element.** -/
theorem rss09xParseFeed_map (X : Tools) (ns : Option Bytes) (root : XmlNode) (version : Version) :
    (rss09xParseFeed X ns { rssVersion := version } root).map Feedpp.Feed.toFeed =
      channelResult X ns root.children := by
  unfold rss09xParseFeed channelResult
  rw [findChannel_eq]
  cases root.children.find? isChannel with
  | none => rfl
  | some channel =>
    by_cases hname : channel.name = none
    · simp only [hname, true_or, if_true]
      rfl
    · simp only [hname, false_or]
      exact foldlM_parseChannelNode channel.children version

end Items

end Analysis

end PsCast
