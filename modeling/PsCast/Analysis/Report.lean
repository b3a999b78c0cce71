import PsCast.Analysis.Confinement
import PsCast.Analysis.Stored

/-!
# What the header says

The header shows the last message that was sent. An addition reports exactly one of three
outcomes, and it reports that the line was appended exactly when it was
(`additionReport_eq_appended_iff`). An update reports on its last feed only
(`downloadFeeds_status`). Everything else leaves the message that was there (`run_reports`).
-/

set_option autoImplicit false

namespace PsCast

open App Library Library.History

namespace App

/-- The message for a line that is in the list. -/
def alreadyMessage (input : Bytes) : Bytes := lit "\"" ++ input ++ lit "\" already in list"

/-- The message where the file cannot be opened to write it. -/
def cannotOpenMessage : Bytes := lit "cannot open \"ux0:/data/psCast/feeds.txt\""

/-- The message for a line that was written, with the newline in it. -/
def appendedMessage (input : Bytes) : Bytes :=
  lit "appended \"" ++ (input ++ [newline]) ++ lit "\" to feed list"

/-- The message after the line `input` was asked for. -/
def additionReport (fdRead : IoRead) (fdAppend : IoWrite) (input : Bytes) (a : App) : Bytes :=
  if input = [] then a.menu.statusMsg
  else if input ∈ feedLines fdRead a then alreadyMessage input
  else if openAppend fdAppend (withFeedFile fdRead a).feedFile < 1 then cannotOpenMessage
  else appendedMessage input

/-- The message after a feed. -/
def feedReport (P : Platform) (url : Bytes) (t : Transfer) : Bytes :=
  if (acceptedFeed P url t).isSome then lit "Done!" else lit "Error!"

/-- The message after these feeds. -/
def updateReport (P : Platform) (status : Bytes) (feeds : List (Bytes × Transfer)) : Bytes :=
  (feeds.getLast?.map fun feed => feedReport P feed.1 feed.2).getD status

/-- The message that the frame ends with. -/
def reported (P : Platform) (a : App) (f : Frame) : Bytes :=
  if a.chosen f = some (.owner .appendUrlToFeed) then
    additionReport f.fdRead f.fdAppend (typed P f) (a.atFrame f)
  else if a.chosen f = some (.owner .updateFromFeedFile) then
    updateReport P a.menu.statusMsg
      (outcomes f.net 0 (Utils.getLinesFromFile f.fdRead f.feedFile).1)
  else a.menu.statusMsg

end App

namespace Analysis

/-! ## Additions -/

/-- The message after an addition. -/
theorem appendUrlToFeed_status {a : App} (hshown : a.toScreen.Shown) (fdRead : IoRead)
    (fdAppend : IoWrite) (input : Bytes) :
    (appendUrlToFeed fdRead fdAppend input a).map (fun b => b.menu.statusMsg) =
      some (additionReport fdRead fdAppend input a) := by
  have hread : (withFeedFile fdRead a).toScreen.Shown := hshown
  unfold appendUrlToFeed additionReport
  rw [updateFeedFile_eq]
  by_cases hinput : input = []
  · simp only [hinput, List.length_nil, Nat.zero_lt_one, if_true]
    rfl
  · have hlength : ¬ input.length < 1 := by
      have := List.length_pos_of_ne_nil hinput
      omega
    simp only [hlength, hinput, if_false]
    cases hfind : (withFeedFile fdRead a).feedUrls.find? (· = input) with
    | some s =>
      have hs : s = input := by simpa using List.find?_some hfind
      have hmem : input ∈ feedLines fdRead a := hs ▸ List.mem_of_find?_eq_some hfind
      rw [if_pos hmem, hs]
      simp only [sendHeaderMessage_eq hread]
      rfl
    | none =>
      have hnot : input ∉ feedLines fdRead a := by
        intro hmem
        simpa using List.find?_eq_none.mp hfind input hmem
      rw [if_neg hnot]
      by_cases hopen : openAppend fdAppend (withFeedFile fdRead a).feedFile < 1
      · simp only [hopen, if_true, sendHeaderMessage_eq hread]
        rfl
      · have hwritten : (withAppended fdRead fdAppend input a).toScreen.Shown := hshown
        have hcontent : (withFeedFile fdRead a).feedFile.getD [] = a.content :=
          content_withFeedFile fdRead a
        simp only [hopen, if_false, hcontent]
        exact congrArg (Option.map fun b : App => b.menu.statusMsg)
          (sendHeaderMessage_eq hwritten _)

/-- The three messages are told apart by their first byte. -/
theorem additionReport_eq_appended_iff {fdRead : IoRead} {fdAppend : IoWrite} {input : Bytes}
    {a : App} (hinput : input ≠ []) :
    additionReport fdRead fdAppend input a = appendedMessage input ↔
      Appends fdRead fdAppend input a := by
  unfold additionReport Appends
  rw [if_neg hinput]
  by_cases hmem : input ∈ feedLines fdRead a
  · rw [if_pos hmem]
    constructor
    · intro h
      cases congrArg List.head? h
    · rintro ⟨-, hnot, -⟩
      exact absurd hmem hnot
  · rw [if_neg hmem]
    by_cases hopen : openAppend fdAppend (withFeedFile fdRead a).feedFile < 1
    · rw [if_pos hopen]
      constructor
      · intro h
        cases congrArg List.head? h
      · rintro ⟨-, -, hopened⟩
        omega
    · rw [if_neg hopen]
      exact ⟨fun _ => ⟨hinput, hmem, by omega⟩, fun _ => rfl⟩

/-! ## Updates -/

/-- The message after a feed. -/
theorem downloadAndParseFeed_status (P : Platform) (t : Transfer) (url : Bytes) {a : App}
    (h : a.toScreen.Shown) :
    (downloadAndParseFeed P t url a).map (fun result => result.2.menu.statusMsg) =
      some (feedReport P url t) := by
  unfold downloadAndParseFeed feedReport acceptedFeed
  simp only [sendHeaderMessage_eq h, download_page, Option.bind_eq_bind, Option.bind_some,
    sendHeaderMessage_eq (shown_withStatus h _), withStatus_withStatus]
  by_cases hempty : t.received (isHttps url) = []
  · simp only [hempty, List.length_nil, Nat.zero_lt_one, if_true]
    rfl
  · have hlength : ¬ (t.received (isHttps url)).length < 1 := by
      have := List.length_pos_iff.mpr hempty
      omega
    simp only [hempty, hlength, if_false]
    cases hparse : P.feedpp (t.received (isHttps url)) with
    | none =>
      simp only [parseFromXmlStream_none hparse]
      rfl
    | some feed =>
      simp only [parseFromXmlStream_some hparse]
      rfl

/-- The report on a list of feeds is that on its last one. -/
theorem updateReport_cons (P : Platform) (status : Bytes) (feed : Bytes × Transfer)
    (feeds : List (Bytes × Transfer)) :
    updateReport P (feedReport P feed.1 feed.2) feeds = updateReport P status (feed :: feeds) := by
  unfold updateReport
  cases feeds with
  | nil => rfl
  | cons feed' feeds =>
    obtain ⟨last, hlast⟩ : ∃ last, (feed' :: feeds).getLast? = some last :=
      Option.isSome_iff_exists.mp (by simp)
    rw [List.getLast?_cons_cons, hlast]
    rfl

/-- The message after the feeds of an update. -/
theorem downloadFeeds_status (P : Platform) (net : ℕ → Transfer) (k : ℕ) (urls : List Bytes)
    {a b : App} (h : a.toScreen.Shown) (hloop : downloadFeeds P net k urls a = some b) :
    b.menu.statusMsg = updateReport P a.menu.statusMsg (outcomes net k urls) := by
  induction urls generalizing k a with
  | nil =>
    cases hloop
    rfl
  | cons url rest ih =>
    obtain ⟨⟨p, c⟩, hfeed, hrest⟩ := Option.bind_eq_some_iff.mp hloop
    have hstatus := downloadAndParseFeed_status P (net k) url h
    rw [hfeed, Option.map_some] at hstatus
    obtain ⟨m, hc⟩ := downloadAndParseFeed_eq P (net k) url h
    obtain ⟨-, rfl⟩ := Prod.mk.inj (Option.some.inj (hfeed.symm.trans hc))
    have hreport : m = feedReport P url (net k) := Option.some.inj hstatus
    rw [outcomes, ← updateReport_cons, ← hreport]
    by_cases hvalid : p.isValid = true
    · simp only [hvalid, if_true] at hrest
      have hshown : ((a.withStatus m).withPodcasts (a.podcasts ++ [p.copy])).toScreen.Shown := h
      exact ih (k + 1) hshown hrest
    · simp only [hvalid] at hrest
      exact ih (k + 1) (shown_withStatus h m) hrest

/-- The message after an update, which is the old one if there was no line. -/
theorem updateFromFeedFile_status {P : Platform} {f : Frame} {a b : App} {t : Trail ListId}
    (h : Follows a t) (hrun : runIfSet P f a (some (.owner .updateFromFeedFile)) = some b) :
    b.menu.statusMsg =
      updateReport P a.menu.statusMsg (outcomes f.net 0 (feedLines f.fdRead a)) := by
  obtain ⟨⟨st, c⟩, hresult, hc⟩ := Option.bind_eq_some_iff.mp hrun
  obtain rfl : c = b := Option.some.inj hc
  by_cases hlines : feedLines f.fdRead a = []
  · rw [updateFromFeedFile_nil P f.fdRead f.net a hlines] at hresult
    obtain ⟨-, rfl⟩ := Prod.mk.inj (Option.some.inj hresult)
    rw [hlines]
    rfl
  · obtain ⟨pl, hpl⟩ := h.toFurnished.owned.podcastList
    have hshown : (withPodcasts (withFeedFile f.fdRead a) []).toScreen.Shown := h.screen_shown
    obtain ⟨m, hloop⟩ := downloadFeeds_eq P f.net 0 (feedLines f.fdRead a)
      (withPodcasts (withFeedFile f.fdRead a) []) hshown
    have hstatus := downloadFeeds_status P f.net 0 (feedLines f.fdRead a) hshown hloop
    have hlist := updatePodcastsList_eq
      (storedPodcasts (keptFeeds P (outcomes f.net 0 (feedLines f.fdRead a))))
      ((withPodcasts (withFeedFile f.fdRead a)
        (storedPodcasts (keptFeeds P (outcomes f.net 0 (feedLines f.fdRead a))))).withStatus m)
      ⟨h.owned.podcastList, h.owned.live, h.owned.allocated, h.owned.nodup⟩ pl hpl
    unfold updateFromFeedFile at hresult
    rw [updateFeedFile_eq] at hresult
    simp only [hlines, if_false, ne_eq, not_true_eq_false, Option.bind_eq_bind] at hresult
    change ((downloadFeeds P f.net 0 (feedLines f.fdRead a)
      (withPodcasts (withFeedFile f.fdRead a) [])).bind _) = _ at hresult
    rw [hloop, Option.bind_some] at hresult
    have hrebuilt := congrArg (Option.bind · fun b => some (App.ok, b)) hlist
    obtain ⟨-, rfl⟩ := Prod.mk.inj (Option.some.inj (hrebuilt.symm.trans hresult))
    exact hstatus

/-! ## Frames -/

section Stepping

variable {P : Platform} {f : Frame} {a b : App} {t : Trail ListId}

/-- The message after a frame. -/
theorem step_reported (h : Follows a t) (hstep : step P a f = some b) :
    b.menu.statusMsg = a.reported P f := by
  obtain ⟨shown, ml, hhead, hml, hrun⟩ := run_of_step h hstep
  have hmoved : Follows ((a.atFrame f).setCursor shown ml (cursorAfter f ml)) t :=
    setCursor_follows h hml _
  unfold App.reported
  by_cases hadd : a.chosen f = some (.owner .appendUrlToFeed)
  · rw [hadd] at hrun
    have hstatus := appendUrlToFeed_status hmoved.screen_shown f.fdRead f.fdAppend (typed P f)
    have hresult : appendUrlToFeed f.fdRead f.fdAppend (typed P f)
        ((a.atFrame f).setCursor shown ml (cursorAfter f ml)) = some b := hrun
    rw [hresult] at hstatus
    rw [if_pos hadd]
    exact Option.some.inj hstatus
  · rw [if_neg hadd]
    by_cases hupdate : a.chosen f = some (.owner .updateFromFeedFile)
    · rw [hupdate] at hrun
      rw [if_pos hupdate]
      exact updateFromFeedFile_status hmoved hrun
    · obtain ⟨shown', ml', -, -, houtcome⟩ := outcome_of_step h hstep
      rw [if_neg hupdate]
      exact (houtcome.keeps_stored hadd hupdate).2.2.2.2

/-- **The header tells what happened**, but not how much was written: every frame from every
reachable state is drawn with the message that stands for it. Where a line was asked for, the
header says that it was appended exactly if the frame adds the line, and the file then grows by
what is written of it; so the header is right exactly if all of the line is written. The feed
parser is a function here. -/
theorem run_reports (P : Platform) (fs : List Frame) (f : Frame) :
    ∃ a b picture, run (step P) App.start fs = some a ∧ a.frame P f = some (b, picture) ∧
      picture.status = a.reported P f ∧
      (a.chosen f = some (.owner .appendUrlToFeed) → typed P f ≠ [] →
        (picture.status = appendedMessage (typed P f) ↔ AddsLine P a f) ∧
        b.content = (a.atFrame f).content ++ (if AddsLine P a f then written P f else []) ∧
        (AddsLine P a f →
          (b.content = (a.atFrame f).content ++ (typed P f ++ [newline]) ↔
            f.fdAppend.Completes (typed P f ++ [newline])))) := by
  obtain ⟨a, hrun, t, h⟩ := run_follows P fs
  obtain ⟨b, hstep, -⟩ := step_follows (P := P) h f
  obtain ⟨⟨b', picture⟩, hdraw, rfl⟩ := Option.map_eq_some_iff.mp hstep
  have hreported := step_reported h hstep
  obtain ⟨-, -, hheader, -⟩ := draw_cases hdraw
  have hstatus : picture.status = b'.menu.statusMsg := by
    obtain ⟨shown, -, hheader⟩ := Option.bind_eq_some_iff.mp hheader
    obtain ⟨ml, -, hheader⟩ := Option.bind_eq_some_iff.mp hheader
    exact (congrArg Prod.fst (Option.some.inj hheader)).symm
  refine ⟨a, b', picture, hrun, hdraw, hstatus.trans hreported, ?_⟩
  intro hadd htyped
  have hadds : AddsLine P a f ↔ Appends f.fdRead f.fdAppend (typed P f) (a.atFrame f) :=
    and_iff_right hadd
  have hcontent : b'.content =
      (a.atFrame f).content ++ (if AddsLine P a f then written P f else []) := by
    rw [(step_stored h hstep).content]
    split
    · rfl
    · exact (List.append_nil _).symm
  refine ⟨?_, hcontent, ?_⟩
  · rw [hstatus.trans hreported, App.reported, if_pos hadd, additionReport_eq_appended_iff htyped,
      hadds]
  · intro hline
    rw [hcontent, if_pos hline, List.append_right_inj]
    exact IoWrite.put_eq_iff (by simp)

end Stepping

end Analysis

end PsCast
