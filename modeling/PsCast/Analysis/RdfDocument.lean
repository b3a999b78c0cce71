import PsCast.Analysis.RssDocument

/-!
# What is read of an RSS 1.0 document

The items of RSS 1.0 stand beside the channel, and there may be several channels: the last
text in any of them wins. No document is refused (`rss10ParseFeed_toFeed`).
-/

set_option autoImplicit false

namespace PsCast

open Feedpp Library

namespace Feedpp

/-- The children of the channels among some nodes. -/
def channelNodes (nodes : List XmlNode) : List XmlNode :=
  nodes.flatMap fun node => if nodeIs node (lit "channel") (some rss10Ns) then node.children else []

/-- What psCast reads of the children of an `RDF` element. -/
def rdfFeed (X : Tools) (nodes : List XmlNode) : PsCast.Feed :=
  { title := textOf X (lit "title") (some rss10Ns) (channelNodes nodes)
    link := textOf X (lit "link") (some rss10Ns) (channelNodes nodes)
    description := textOf X (lit "description") (some rss10Ns) (channelNodes nodes)
    dcCreator := textOf X (lit "creator") (some dcUri) (channelNodes nodes)
    items := itemsOf X (some rss10Ns) nodes }

end Feedpp

namespace Analysis

variable {X : Tools} {node : XmlNode}

/-! ## Items -/

/-- A round of the loop over an item, as far as psCast reads it. -/
theorem rss10ItemNode_toItem (it : Feedpp.Item) (node : XmlNode) :
    (rss10ItemNode X it node).toItem = stepItem X (some rss10Ns) it.toItem node := by
  unfold rss10ItemNode
  by_cases htitle : nodeIs node (lit "title") (some rss10Ns) = true
  · rw [if_pos htitle, stepItem_title htitle]
    rfl
  rw [if_neg htitle]
  by_cases hlink : nodeIs node (lit "link") (some rss10Ns) = true
  · rw [if_pos hlink, stepItem_link hlink]
    rfl
  rw [if_neg hlink]
  by_cases hdescription : nodeIs node (lit "description") (some rss10Ns) = true
  · rw [if_pos hdescription, stepItem_description hdescription]
    rfl
  rw [if_neg hdescription, stepItem_other htitle hlink hdescription]
  iterate 3
    split
    · rfl
  rfl

/-! ## Channels -/

/-- A round of the loop over a channel, as far as its heading goes. -/
theorem rss10ChannelNode_heading (f : Feedpp.Feed) (node : XmlNode) :
    heading (rss10ChannelNode X f node) = stepItem X (some rss10Ns) (heading f) node := by
  unfold rss10ChannelNode
  by_cases htitle : nodeIs node (lit "title") (some rss10Ns) = true
  · rw [if_pos htitle, stepItem_title htitle]
    rfl
  rw [if_neg htitle]
  by_cases hlink : nodeIs node (lit "link") (some rss10Ns) = true
  · rw [if_pos hlink, stepItem_link hlink]
    rfl
  rw [if_neg hlink]
  by_cases hdescription : nodeIs node (lit "description") (some rss10Ns) = true
  · rw [if_pos hdescription, stepItem_description hdescription]
    rfl
  rw [if_neg hdescription, stepItem_other htitle hlink hdescription]
  iterate 2
    split
    · rfl
  rfl

/-- The last creator is kept. -/
theorem rss10ChannelNode_dcCreator (f : Feedpp.Feed) (node : XmlNode) :
    (rss10ChannelNode X f node).dcCreator =
      (ofNode (lit "creator") (some dcUri) (getContent X) node).getD f.dcCreator := by
  unfold ofNode
  cases hcreator : nodeIs node (lit "creator") (some dcUri) with
  | true =>
    have hother : ∀ name uri, lit "creator" ≠ name → nodeIs node name uri = false :=
      fun name uri hne => nodeIs_of_ne hcreator hne
    unfold rss10ChannelNode
    simp only [hother (lit "title") _ (by decide), hother (lit "link") _ (by decide),
      hother (lit "description") _ (by decide), hother (lit "date") _ (by decide), hcreator,
      Bool.false_eq_true, if_false, if_true, Option.getD_some]
  | false =>
    unfold rss10ChannelNode
    rw [hcreator]
    iterate 4
      split
      · rfl
    rfl

/-- A channel brings no items. -/
theorem rss10ChannelNode_items (f : Feedpp.Feed) (node : XmlNode) :
    (rss10ChannelNode X f node).items = f.items := by
  unfold rss10ChannelNode
  iterate 5
    split
    · rfl
  rfl

/-! ## Documents -/

/-- The children of a channel are read into the feed. -/
theorem rss10Node_channel (h : nodeIs node (lit "channel") (some rss10Ns) = true)
    (f : Feedpp.Feed) : rss10Node X f node = node.children.foldl (rss10ChannelNode X) f := if_pos h

/-- A node that is no channel adds at most an item. -/
theorem rss10Node_other (h : ¬ nodeIs node (lit "channel") (some rss10Ns) = true)
    (f : Feedpp.Feed) :
    ∃ items, rss10Node X f node = { f with items := f.items ++ items } ∧
      items.map Feedpp.Item.toItem = (ofNode (lit "item") (some rss10Ns)
        (fun node => itemOf X (some rss10Ns) node.children) node).toList := by
  unfold rss10Node ofNode
  rw [if_neg h]
  split
  · refine ⟨_, rfl, ?_⟩
    have hitem := foldl_stepItem Feedpp.Item.toItem (rss10ItemNode_toItem (X := X)) node.children
      (s := { guid := getProp X node (lit "about") (some rdfUri) }) rfl
    exact congrArg (fun item => [item]) hitem
  · exact ⟨[], by rw [List.append_nil], rfl⟩

/-- A node of the document is read as the children of a channel, in turn. -/
theorem rss10Node_nested {τ : Type} (get : Feedpp.Feed → τ) (inner : τ → XmlNode → τ)
    (hchannel : ∀ f node, get (rss10ChannelNode X f node) = inner (get f) node)
    (hitems : ∀ f items, get { f with items := items } = get f) (f : Feedpp.Feed) (node : XmlNode) :
    get (rss10Node X f node) =
      (if nodeIs node (lit "channel") (some rss10Ns) then node.children else []).foldl inner
        (get f) := by
  by_cases h : nodeIs node (lit "channel") (some rss10Ns) = true
  · rw [rss10Node_channel h, if_pos h]
    exact (List.foldl_hom get fun f node => (hchannel f node).symm).symm
  · obtain ⟨items, hitem, -⟩ := rss10Node_other (X := X) h f
    rw [hitem, if_neg h]
    exact hitems f _

/-- An item is appended. -/
theorem rss10Node_items (f : Feedpp.Feed) (node : XmlNode) :
    (rss10Node X f node).items.map Feedpp.Item.toItem = f.items.map Feedpp.Item.toItem ++
      (ofNode (lit "item") (some rss10Ns)
        (fun node => itemOf X (some rss10Ns) node.children) node).toList := by
  by_cases h : nodeIs node (lit "channel") (some rss10Ns) = true
  · have hother : nodeIs node (lit "item") (some rss10Ns) = false := nodeIs_of_ne h (by decide)
    have hkeep := foldl_keep Feedpp.Feed.items (rss10ChannelNode_items (X := X)) node.children f
    unfold ofNode
    rw [rss10Node_channel h, hkeep, hother]
    exact (List.append_nil _).symm
  · obtain ⟨items, hitem, hmap⟩ := rss10Node_other (X := X) h f
    rw [hitem, ← hmap]
    exact List.map_append

/-- **RSS 1.0.** -/
theorem rss10ParseFeed_toFeed (X : Tools) (root : XmlNode) (version : Version) :
    (rss10ParseFeed X { rssVersion := version } root).toFeed = rdfFeed X root.children := by
  have hheading : heading (rss10ParseFeed X { rssVersion := version } root) =
      itemOf X (some rss10Ns) (channelNodes root.children) := by
    have hnested := foldl_nested heading (stepItem X (some rss10Ns)) _
      (rss10Node_nested heading _ rss10ChannelNode_heading fun _ _ => rfl) root.children
      { rssVersion := version }
    rw [rss10ParseFeed, hnested]
    exact foldl_stepItem id (fun _ _ => rfl) _ rfl
  have hcreator : (rss10ParseFeed X { rssVersion := version } root).dcCreator =
      textOf X (lit "creator") (some dcUri) (channelNodes root.children) := by
    have hnested := foldl_nested Feedpp.Feed.dcCreator
      (fun creator node => (ofNode (lit "creator") (some dcUri) (getContent X) node).getD creator) _
      (rss10Node_nested Feedpp.Feed.dcCreator _ rss10ChannelNode_dcCreator fun _ _ => rfl)
      root.children { rssVersion := version }
    rw [rss10ParseFeed, hnested]
    exact foldl_last id _ (fun _ _ => rfl) _ _
  have hitems : (rss10ParseFeed X { rssVersion := version } root).items.map
      Feedpp.Item.toItem = itemsOf X (some rss10Ns) root.children := by
    have hcollect := foldl_collect (fun f : Feedpp.Feed => f.items.map Feedpp.Item.toItem)
      (ofNode (lit "item") (some rss10Ns) fun node => itemOf X (some rss10Ns) node.children)
      root.children (fun f node _ => rss10Node_items (X := X) f node) { rssVersion := version }
    rwa [filterMap_ofNode] at hcollect
  rw [toFeed_eq, hheading, hcreator, hitems]
  rfl

end Analysis

end PsCast
