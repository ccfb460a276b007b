import Thunder.Core.FileSystem
import Mathlib.Algebra.Group.Nat.Defs

/-! `Service::FileToServe`: the file that answers a request to the web server of a service. -/

namespace Thunder

open Thunder.Path Core.File

namespace Web

inductive MIMETypes
  | html | json | css | imageTiff | imageVnd | imageXIcon | imageXJng | imageXMsBmp | imageSvgXml
  | imageWebp | imageGif | imageJpg | imagePng | fontTtf | fontOpentype | textXml
  | applicationFontWoff | applicationJavaArchive | applicationJavascript | applicationAtomXml
  | applicationRssXml | unknown
  deriving DecidableEq

inductive EncodingTypes
  | gzip | unknown
  deriving DecidableEq

inductive WebStatus
  | ok | badRequest
  deriving DecidableEq

/-- The fields of a response that are filled here; `body` is the path of a `FileBody`. -/
structure Response where
  errorCode : WebStatus := .ok
  message : String := ""
  contentType : Option MIMETypes := none
  contentEncoding : Option EncodingTypes := none
  body : Option (List Char) := none

def extensionLookupTable : List (MIMETypes × String) :=
  [(.html, "html"), (.html, "htm"), (.json, "json"), (.css, "css"), (.imageTiff, "tif"),
    (.imageTiff, "tiff"), (.imageVnd, "wbmp"), (.imageXIcon, "ico"), (.imageXJng, "jng"),
    (.imageXMsBmp, "bmp"), (.imageSvgXml, "svg"), (.imageSvgXml, "svgz"), (.imageWebp, "webp"),
    (.imageGif, "gif"), (.imageJpg, "jpg"), (.imageJpg, "jpeg"), (.imagePng, "png"),
    (.fontTtf, "ttf"), (.fontOpentype, "otp"), (.textXml, "xml"), (.applicationFontWoff, "woff"),
    (.applicationJavaArchive, "jar"), (.applicationJavaArchive, "war"),
    (.applicationJavaArchive, "e"), (.applicationJavascript, "js"), (.applicationAtomXml, "atom"),
    (.applicationRssXml, "rss")]

def endsWithCaseInsensitive (mainStr toMatch : List Char) : Bool :=
  toMatch.length ≤ mainStr.length ∧
    (mainStr.drop (mainStr.length - toMatch.length)).map Char.toLower = toMatch

/-- What a string is from a position on, as a C string: up to the first NUL. -/
def cString (s : List Char) (position : Nat) : List Char := (s.drop position).takeWhile (· ≠ '\x00')

/-- Whether a path names a file, and what is appended for it; a slash in front goes. -/
def locate (path : List Char) : Bool × List Char :=
  if path.length ≠ 0 then
    let offset := if charAt path 0 = '/' then 1 else 0
    (charAt path (path.length - 1) ≠ '/', cString path offset)
  else (false, [])

/-- The type and the encoding of a file. -/
def typeAndEncoding (fileToService : List Char) : MIMETypes × EncodingTypes :=
  let zipped := endsWithCaseInsensitive fileToService ".gz".toList
  let fileName := if zipped then fileToService.take (fileToService.length - 3) else fileToService
  let entry := extensionLookupTable.find? fun e => endsWithCaseInsensitive fileName e.2.toList
  (if '.' ∈ fileName then (entry.map Prod.fst).getD .unknown else .unknown,
    if zipped then .gzip else .unknown)

/-- Whether a file is present, its path, its type and its encoding. -/
def mimeTypeAndEncodingForFile (path fileToService : List Char) :
    Bool × List Char × MIMETypes × EncodingTypes :=
  let r := locate path
  let fileToService := fileToService ++ r.2
  (r.1, fileToService, if r.1 then typeAndEncoding fileToService else (.unknown, .unknown))

section

variable (path fileToService : List Char)

@[simp] theorem mimeTypeAndEncodingForFile_present :
    (mimeTypeAndEncodingForFile path fileToService).1 = (locate path).1 := rfl

@[simp] theorem mimeTypeAndEncodingForFile_path :
    (mimeTypeAndEncodingForFile path fileToService).2.1 = fileToService ++ (locate path).2 := rfl

theorem mimeTypeAndEncodingForFile_type (h : (locate path).1 = true) :
    (mimeTypeAndEncodingForFile path fileToService).2.2 =
      typeAndEncoding (fileToService ++ (locate path).2) := if_pos h

end

end Web

namespace PluginHost

open Web

/-- The configuration of a service as a web server.  Its directory ends with a slash. -/
structure Service where
  webPrefix : List Char
  webURLPath : List Char
  webServerFilePath : List Char
  isDirectory : webServerFilePath.getLast? = some '/'

namespace Service

/-- Where the path of the file begins in a request, a `uint16_t`. -/
def offset (s : Service) : Nat :=
  (s.webPrefix.length % 2 ^ 16 +
    if s.webURLPath = [] then 1 else s.webURLPath.length % 2 ^ 16 + 2) % 2 ^ 16

def fileToServe (s : Service) (webServiceRequest : List Char) (response : Response)
    (allowUnsafePath : Bool) : Response :=
  let located := mimeTypeAndEncodingForFile (webServiceRequest.drop s.offset) s.webServerFilePath
  if webServiceRequest.length ≤ s.offset ∨ located.1 = false then
    let fileToService :=
      if webServiceRequest.length ≤ s.offset then s.webServerFilePath else located.2.1
    { response with
      contentType := some .html
      body := some (fileToService ++ "index.html".toList) }
  else
    let fileToService := located.2.1
    let normalizedPath :=
      normalize (fileToService.drop s.webServerFilePath.length) (!allowUnsafePath) false
    if normalizedPath ≠ [] then
      { response with
        body := some fileToService
        contentType := some located.2.2.1
        contentEncoding :=
          if located.2.2.2 ≠ .unknown then some located.2.2.2 else response.contentEncoding }
    else { response with errorCode := .badRequest, message := "Invalid Request" }

/-- The answer is BAD_REQUEST, or it opens a file inside the directory of the service. -/
def Confined (cwd : List Name) (s : Service) (response : Response) : Prop :=
  response.errorCode = .badRequest ∨
    ∃ path, response.body = some path ∧ Inside cwd s.webServerFilePath path

/-- Whether a request names a file, and what it asks for under the directory of the service. -/
def asked (s : Service) (webServiceRequest : List Char) : Bool × List Char :=
  let r := locate (webServiceRequest.drop s.offset)
  (r.1, if r.1 then r.2 else r.2 ++ "index.html".toList)

/-- A `..` in a request for a directory, or one that is kept in a request for a file that is not
refused: it is behind a name that begins with a dot, or behind the first name when that has a dot
for its second character, or behind a `..` that was kept before. -/
def Unchecked (s : Service) (webServiceRequest : List Char) : Prop :=
  if (s.asked webServiceRequest).1 then
    accepts ⟨false, []⟩ (names (s.asked webServiceRequest).2) = true ∧
      keepsUp ⟨false, []⟩ (names (s.asked webServiceRequest).2) = true
  else ['.', '.'] ∈ names (s.asked webServiceRequest).2

section

variable {cwd : List Name} {s : Service} {request : List Char}

theorem asked_directory (h : (s.asked request).1 = false) :
    ∃ path, (s.asked request).2 = path ++ "index.html".toList := by
  rw [asked] at h ⊢
  exact ⟨_, if_neg (by rw [h]; decide)⟩

theorem fileToServe_eq : s.fileToServe request {} false =
    if (s.asked request).1 = false then
      { contentType := some .html
        body := some (s.webServerFilePath ++ (s.asked request).2) }
    else if normalize (s.asked request).2 true false ≠ [] then
      { body := some (s.webServerFilePath ++ (s.asked request).2)
        contentType :=
          some (typeAndEncoding (s.webServerFilePath ++ (s.asked request).2)).1
        contentEncoding :=
          if (typeAndEncoding (s.webServerFilePath ++ (s.asked request).2)).2 ≠ .unknown then
            some (typeAndEncoding (s.webServerFilePath ++ (s.asked request).2)).2 else none }
    else { errorCode := .badRequest, message := "Invalid Request" } := by
  have hshort : request.length ≤ s.offset → locate (request.drop s.offset) = (false, []) := by
    intro h
    rw [List.drop_eq_nil_of_le h]
    rfl
  by_cases hfile : (locate (request.drop s.offset)).1 = false
  · have hasked : s.asked request = (false, (locate
      (request.drop s.offset)).2 ++ "index.html".toList) := by
      rw [asked, hfile]
      rfl
    rw [fileToServe, if_pos (.inr hfile), hasked, if_pos rfl]
    split_ifs with h
    · rw [hshort h]
      rfl
    · simp
  · have hlong : ¬ request.length ≤ s.offset := fun h => hfile (by rw [hshort h])
    rw [Bool.not_eq_false] at hfile
    have hasked : s.asked request = (true, (locate (request.drop s.offset)).2) := by
      rw [asked, hfile]
      rfl
    have htype := mimeTypeAndEncodingForFile_type _ s.webServerFilePath hfile
    rw [fileToServe, hasked, if_neg (by simp [hlong, hfile]),
      if_neg (show ¬ true = false by decide)]
    simp only [mimeTypeAndEncodingForFile_path, List.drop_left, Bool.not_false, htype]

/-- The answer is confined exactly when what it does not check leads inside by itself. -/
theorem fileToServe_confined_iff (cwd : List Name) (s : Service) (request : List Char) :
    Confined cwd s (s.fileToServe request {} false) ↔
      (Unchecked s request →
        Inside cwd s.webServerFilePath (s.webServerFilePath ++ (s.asked request).2)) := by
  have hopens {response : Response} {path : List Char} (herror : response.errorCode = .ok)
      (hbody : response.body = some path) :
      Confined cwd s response ↔ Inside cwd s.webServerFilePath path := by
    rw [Confined, hbody]
    refine ⟨fun h => ?_, fun h => .inr ⟨path, rfl, h⟩⟩
    obtain ⟨path', hpath, hinside⟩ := h.resolve_left (by rw [herror]; decide)
    exact Option.some.inj hpath ▸ hinside
  rw [fileToServe_eq, Unchecked]
  by_cases hfile : (s.asked request).1 = false
  · rw [if_pos hfile, if_neg (by rw [hfile]; decide), hopens rfl rfl]
    refine ⟨fun h _ => h, fun h => ?_⟩
    by_cases hup : ['.', '.'] ∈ names (s.asked request).2
    · exact h hup
    · obtain ⟨path, hpath⟩ := asked_directory hfile
      rw [hpath] at hup ⊢
      obtain ⟨below, hbelow, hwalk⟩ := walk_file (resolve cwd s.webServerFilePath)
        (by decide) ⟨'l', rfl, by decide⟩ hup
      exact inside_append s.isDirectory hwalk hbelow
  · rw [if_neg hfile, if_pos ((Bool.not_eq_false _).mp hfile), ← normalize_ne_nil]
    by_cases haccepts : normalize (s.asked request).2 true false ≠ []
    · rw [if_pos haccepts, hopens rfl rfl]
      refine ⟨fun h _ => h, fun h => ?_⟩
      by_cases hkeeps : keepsUp ⟨false, []⟩ (names (s.asked request).2) = true
      · exact h ⟨haccepts, hkeeps⟩
      · obtain ⟨below, hbelow, hwalk⟩ := walk_of_accepts (t := ⟨false, []⟩)
          (resolve cwd s.webServerFilePath) nofun (normalize_ne_nil.mp haccepts)
          ((Bool.not_eq_true _).mp hkeeps)
        exact inside_append s.isDirectory hwalk hbelow
    · rw [if_neg haccepts]
      exact ⟨fun _ h => absurd h.1 haccepts, fun _ => .inl rfl⟩

/-- A service that shows its directory under `UI`. -/
def sample : Service := ⟨"/Service/P".toList, "UI".toList, "/data/UI/".toList, by decide⟩

/-- A request for a directory is not checked at all, and a `..` behind a name that begins with a
dot is kept, with the one behind it. -/
theorem not_confined_two :
    ¬ Confined [] sample (sample.fileToServe "/Service/P/UI/../../etc/".toList {} false) ∧
      ¬ Confined [] sample (sample.fileToServe "/Service/P/UI/.a/../../x".toList {} false) := by
  constructor
  · rintro (h | ⟨path, hpath, h⟩)
    · exact absurd h (by decide)
    · rw [← Option.some.inj hpath] at h
      exact absurd h (by decide)
  · rintro (h | ⟨path, hpath, h⟩)
    · exact absurd h (by decide)
    · rw [← Option.some.inj hpath] at h
      exact absurd h (by decide)

end

end Service

end PluginHost

end Thunder
