import PsCast.Model.MenuList
import Mathlib.Data.Int.Notation

/-!
# Podcasts

`Podcast` of `podcast.hpp` and `podcast.cpp`, and the part of `feedpp::feed` that it
reads. The parser is a parameter: `feedpp xml` is the feed that
`feedpp::parser::parse_buffer` returns on the buffer `xml`, and `none` when it throws.
-/

set_option autoImplicit false

namespace PsCast

/-- SOURCE: libraries/feedpp/rsspp.h:45-71 -/
structure Item where
  title : Bytes := []
  link : Bytes := []
  description : Bytes := []
  deriving DecidableEq, Repr

/-- SOURCE: libraries/feedpp/rsspp.h:73-86 -/
structure Feed where
  title : Bytes := []
  description : Bytes := []
  link : Bytes := []
  dcCreator : Bytes := []
  items : List Item := []
  deriving DecidableEq, Repr

/-- SOURCE: source/include/podcast.hpp:24-36 -/
structure Episode where
  name : Bytes := []
  description : Bytes := []
  url : Bytes := []
  deriving DecidableEq, Repr

/-- SOURCE: source/include/podcast.hpp:9-38 -/
structure Podcast where
  isValid : Bool := false
  name : Bytes := []
  author : Bytes := []
  description : Bytes := []
  url : Bytes := []
  episodes : List Episode := []
  deriving DecidableEq, Repr

namespace Podcast

/-- The status `OK`, the only one that `parseFromXmlStream` returns.
SOURCE: source/include/podcast.hpp:14-17 -/
def ok : ℤ := 0

/-- The copy constructor. It names every member but `is_valid`, which therefore starts at
its default.
SOURCE: source/include/podcast.hpp:41-49 -/
def copy (p : Podcast) : Podcast :=
  { name := p.name, author := p.author, description := p.description, url := p.url,
    episodes := p.episodes }

/-- The object after `n` copy constructions in a row. -/
def copies : ℕ → Podcast → Podcast
  | 0, p => p
  | n + 1, p => copies n p.copy

/-- The `Episode` built for one item of a feed.
SOURCE: source/podcast.cpp:21-24 -/
def episodeOf (item : Item) : Episode :=
  { name := item.title, description := item.description, url := item.link }

/-- The status returned, or `none` when the exception of the parser passes through, and
the object as it is left in both cases.
SOURCE: source/podcast.cpp:8-32 -/
def parseFromXmlStream (feedpp : Bytes → Option Feed) (p : Podcast) (xml : Bytes) :
    Option ℤ × Podcast :=
  let p := { p with isValid := false }
  match feedpp xml with
  | none => (none, p)
  | some feed =>
    let p := { p with
      name := feed.title
      author := feed.dcCreator
      url := feed.link
      description := feed.description }
    let p := feed.items.foldl
      (fun p item => { p with episodes := p.episodes ++ [episodeOf item] }) p
    (some ok, { p with isValid := true })

end Podcast

end PsCast
