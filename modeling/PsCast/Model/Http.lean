import PsCast.Model.MenuList
import Mathlib.Data.List.Infix
import Mathlib.Logic.Function.Basic

/-!
# Downloads

`HttpBase`, `Https::download` and `Http::download` of `http.hpp` and `http.cpp`. What the
SDK and libcurl do during one download is a `Transfer`: the status of `HttpBase::init`,
the body chunks in the order they arrive, and the code with which the transfer ends.
`HttpBase::init` and `HttpBase::end` themselves work on the subsystems of the SDK, each of
which is up or down.
-/

set_option autoImplicit false

namespace PsCast

/-- SOURCE: source/include/http.hpp:29-39 -/
inductive HttpStatus where
  | ok
  | netModuleError
  | netRunError
  | netCtlError
  | netSocketError
  | httpModuleError
  | httpRunError
  | curlError
  | notInit
  deriving DecidableEq, Repr

/-! ## Start and end -/

/-- What `init` starts, in the order of its calls: the net module and the net library, the
netctl library, the HTTP module and the HTTP library. -/
inductive Subsystem where
  | netModule
  | net
  | netCtl
  | httpModule
  | http
  deriving DecidableEq, Repr

/-- The results of the SDK calls that start and stop a subsystem, by whether it is up. Zero
is success. -/
structure Sdk where
  startCall : Subsystem → Bool → ℤ
  stopCall : Subsystem → Bool → ℤ

/-- The static member `is_init`, and which subsystems are up. -/
structure Network where
  isInit : Bool := false
  up : Subsystem → Bool := fun _ => false

namespace Network

/-- A call that starts the subsystem `k`: its result, and its effect if that is success. -/
def startCall (n : Network) (sdk : Sdk) (k : Subsystem) : ℤ × Network :=
  let result := sdk.startCall k (n.up k)
  (result, if result = 0 then { n with up := Function.update n.up k true } else n)

/-- A call that stops the subsystem `k`: its result, and its effect if that is success. -/
def stopCall (n : Network) (sdk : Sdk) (k : Subsystem) : ℤ × Network :=
  let result := sdk.stopCall k (n.up k)
  (result, if result = 0 then { n with up := Function.update n.up k false } else n)

end Network

/-- SOURCE: source/http.cpp:84-112 -/
def HttpBase.init (sdk : Sdk) (n : Network) : HttpStatus × Network :=
  if n.isInit then (.ok, n)
  else
    let (result, n) := n.startCall sdk .netModule
    if result ≠ 0 then (.netModuleError, n)
    else
      let (result, n) := n.startCall sdk .net
      if result ≠ 0 then (.netRunError, n)
      else
        let (result, n) := n.startCall sdk .netCtl
        if result ≠ 0 then (.netCtlError, n)
        else
          let (result, n) := n.startCall sdk .httpModule
          if result ≠ 0 then (.httpModuleError, n)
          else
            let (result, n) := n.startCall sdk .http
            if result ≠ 0 then (.httpRunError, n)
            else (.ok, { n with isInit := true })

/-- Whether `sceNetCtlTerm` stopped anything is not looked at.
SOURCE: source/http.cpp:114-134 -/
def HttpBase.end (sdk : Sdk) (n : Network) : HttpStatus × Network :=
  if !n.isInit then (.ok, n)
  else
    let (result, n) := n.stopCall sdk .http
    if result ≠ 0 then (.httpRunError, n)
    else
      let (result, n) := n.stopCall sdk .httpModule
      if result ≠ 0 then (.httpModuleError, n)
      else
        let (_, n) := n.stopCall sdk .netCtl
        let (result, n) := n.stopCall sdk .net
        if result ≠ 0 then (.netRunError, n)
        else
          let (result, n) := n.stopCall sdk .netModule
          if result ≠ 0 then (.netModuleError, n)
          else (.ok, { n with isInit := false })

/-! ## Transfers -/

/-- One transfer, as the code meets it. The chunks are the buffers of the write callbacks
of curl, respectively the bytes of the positive results of `sceHttpReadData`, and are not
empty. `ended` is the `CURLcode` of `curl_easy_perform`, respectively the result of
`sceHttpReadData` that ends the read loop; both are zero exactly when nothing failed.
`easyInit` says whether `curl_easy_init` returned a handle. -/
structure Transfer where
  init : HttpStatus := .ok
  easyInit : Bool := true
  chunks : List Bytes
  ended : ℤ := 0
  nonempty : ∀ c ∈ chunks, c ≠ []

/-- The write callback: the number of bytes it reports as taken, and the string behind
`stream` afterwards.
SOURCE: source/http.cpp:77-81 -/
def writeDataToDisk (data _stream : Bytes) : ℕ × Bytes := (data.length, data)

/-- `curl_easy_perform` hands the chunks to the write callback one after the other, and
stops at the first chunk that the callback does not take whole. -/
def curlEasyPerform (write : Bytes → Bytes → ℕ × Bytes) : (chunks : List Bytes) → Bytes → Bytes
  | [], stream => stream
  | data :: rest, stream =>
    let (taken, stream) := write data stream
    if taken = data.length then curlEasyPerform write rest stream else stream

/-- The status returned and `current_page` afterwards.
SOURCE: source/http.cpp:136-188 -/
def Https.download (t : Transfer) (current_page : Bytes) : HttpStatus × Bytes :=
  if t.init ≠ .ok then (t.init, current_page)
  else
    let current_page := []
    if t.easyInit then
      let current_page := curlEasyPerform writeDataToDisk t.chunks current_page
      (if t.ended ≠ 0 then .curlError else .ok, current_page)
    else (.curlError, current_page)

/-- The read loop: a positive result is appended, any other one ends the loop.
SOURCE: source/http.cpp:215-216 -/
def Http.readLoop : (reads : List Bytes) → (current_page : Bytes) → Bytes
  | [], current_page => current_page
  | data :: rest, current_page =>
    if 0 < data.length then Http.readLoop rest (current_page ++ data) else current_page

/-- The status returned and `current_page` afterwards. The result that ended the loop is
not looked at.
SOURCE: source/http.cpp:199-219 -/
def Http.download (t : Transfer) (current_page : Bytes) : HttpStatus × Bytes :=
  if t.init ≠ .ok then (t.init, current_page)
  else (.ok, Http.readLoop t.chunks [])

/-- The test `url.find("https://") != std::string::npos`.
SOURCE: source/app.cpp:95 -/
def isHttps (url : Bytes) : Bool := decide (lit "https://" <:+: url)

/-- `new Https()` or `new Http()`, by the URL, and its virtual `download`.
SOURCE: source/app.cpp:95-100 -/
def HttpBase.download (url : Bytes) (t : Transfer) : HttpStatus × Bytes :=
  if isHttps url then Https.download t [] else Http.download t []

end PsCast
