import BtDht.Cpp
import BtDht.Data.Paths

/-!
# BtDht.MyWebView.StaticFile

`StaticFileRouting` of `mywebview.cpp` and the route in front of it.  It cuts
four characters off the path of the request and writes the rest behind the
folder's path.

Nothing looks at the segments `.` and `..`, nor at what follows the four
characters.  `staticFileRouting_inside_iff` says which requests stay in the
folder all the same.
-/

namespace BtDht.StaticFile

open Paths

/-- `std::wstring`: UTF-16 code units. -/
abbrev WString := List UInt16

/-- What the route and its handler read of a `RequestResponseAPI`. -/
structure StaticRequest where
  /-- `GetMethod()` is `mt::Method::GET` -/
  isGet : Bool
  getPath : Bytes

/-- What the handler sends: `SendFile` and `Send404`. -/
inductive StaticResponse
  | sendFile (path : WString) (flag : Bool)
  | send404
  deriving DecidableEq, Repr

/-- `std::out_of_range` -/
inductive OutOfRange
  | substr
  deriving DecidableEq, Repr

/-- `std::wstring::substr` up to the end. -/
def substr (s : WString) (pos : Nat) : Except OutOfRange WString :=
  if pos ≤ s.length then .ok (s.drop pos) else .error .substr

/-- `"/app"` -/
def app : Bytes := [0x2F, 0x61, 0x70, 0x70]

/-- The condition of the static route. -/
def staticRoute (p : StaticRequest) : Bool :=
  p.isGet && app.isPrefixOf p.getPath

section

variable (getWideCharFromUTF8 : Bytes → WString) (isFileOrFolder : WString → Int)

/-- `StaticFileRouting` -/
def staticFileRouting (p : StaticRequest) (folderPath : WString) :
    Except OutOfRange StaticResponse := do
  let path := p.getPath
  let reqWpath := getWideCharFromUTF8 path
  let allWpath := folderPath ++ (← substr reqWpath 4)
  let isFolderFile := isFileOrFolder allWpath
  if isFolderFile = 1 then
    return .sendFile allWpath false
  else
    return .send404

end

/-! ## paths -/

/-- `/` and `\`. -/
def isSeparator (c : UInt16) : Bool := c = 0x2F ∨ c = 0x5C

/-- `.` -/
def fullStop : UInt16 := 0x2E

/-- The path names something in the folder. -/
abbrev InFolder (folderPath path : WString) : Prop :=
  Inside isSeparator fullStop folderPath path

/-- An ASCII character becomes the code unit of the same number. -/
def MapsAscii (getWideCharFromUTF8 : Bytes → WString) : Prop :=
  ∀ c s, c < 0x80 → getWideCharFromUTF8 (c :: s) = c.toUInt16 :: getWideCharFromUTF8 s

/-! ## what is sent -/

variable {getWideCharFromUTF8 : Bytes → WString} {isFileOrFolder : WString → Int}

/-- On the route the cut is always possible, and takes off `/app`. -/
theorem substr_four {p : StaticRequest} (hwide : MapsAscii getWideCharFromUTF8)
    (hroute : staticRoute p = true) :
    substr (getWideCharFromUTF8 p.getPath) 4 = .ok (getWideCharFromUTF8 (p.getPath.drop 4)) := by
  rw [staticRoute, Bool.and_eq_true, List.isPrefixOf_iff_prefix] at hroute
  obtain ⟨-, rest, hrest⟩ := hroute
  have happ : getWideCharFromUTF8 (app ++ rest) =
      app.map UInt8.toUInt16 ++ getWideCharFromUTF8 rest := by
    simp only [app, List.cons_append, List.nil_append, List.map_cons, List.map_nil]
    rw [hwide _ _ (by decide), hwide _ _ (by decide), hwide _ _ (by decide),
      hwide _ _ (by decide)]
  rw [← hrest, happ]
  rfl

theorem staticFileRouting_eq {p : StaticRequest} (hwide : MapsAscii getWideCharFromUTF8)
    (hroute : staticRoute p = true) (folderPath : WString) :
    staticFileRouting getWideCharFromUTF8 isFileOrFolder p folderPath =
      if isFileOrFolder (folderPath ++ getWideCharFromUTF8 (p.getPath.drop 4)) = 1 then
        .ok (.sendFile (folderPath ++ getWideCharFromUTF8 (p.getPath.drop 4)) false)
      else .ok .send404 := by
  simp only [staticFileRouting, substr_four hwide hroute]
  rfl

/-- **Which requests never leave the folder.**  The text after `/app` has to
begin with a separator, never to climb above the folder and to end below it;
every other request on the route is answered, for some folder, with a file that
is not in it. -/
theorem staticFileRouting_inside_iff (hwide : MapsAscii getWideCharFromUTF8) (p : StaticRequest)
    (hroute : staticRoute p = true) :
    (∀ folderPath isFileOrFolder path flag,
        staticFileRouting getWideCharFromUTF8 isFileOrFolder p folderPath =
          .ok (.sendFile path flag) → InFolder folderPath path) ↔
      StaysInside isSeparator fullStop (getWideCharFromUTF8 (p.getPath.drop 4)) := by
  rw [← forall_inside_append_iff (c := 0x77) (by decide) (by decide)]
  constructor
  · intro h folderPath
    have hsent : staticFileRouting getWideCharFromUTF8 (fun _ => 1) p folderPath =
        .ok (.sendFile (folderPath ++ getWideCharFromUTF8 (p.getPath.drop 4)) false) := by
      rw [staticFileRouting_eq hwide hroute, if_pos rfl]
    exact h folderPath _ _ _ hsent
  · intro h folderPath isFileOrFolder path flag hsent
    rw [staticFileRouting_eq hwide hroute] at hsent
    split at hsent
    · cases hsent
      exact h folderPath
    · cases hsent

/-! ## two requests -/

/-- A conversion that is right on ASCII texts. -/
def widen (s : Bytes) : WString := s.map UInt8.toUInt16

theorem mapsAscii_widen : MapsAscii widen := by
  intro c s hc
  rfl

/-- `GET /app/x` -/
def insideRequest : StaticRequest where
  isGet := true
  getPath := app ++ [0x2F, 0x78]

/-- It stays in the folder. -/
theorem staticFileRouting_inside_insideRequest : staticRoute insideRequest = true ∧
    ∀ folderPath isFileOrFolder path flag,
      staticFileRouting widen isFileOrFolder insideRequest folderPath =
        .ok (.sendFile path flag) → InFolder folderPath path :=
  ⟨by decide, (staticFileRouting_inside_iff mapsAscii_widen insideRequest (by decide)).mpr
    (by decide)⟩

/-- `GET /app/../x` -/
def outsideRequest : StaticRequest where
  isGet := true
  getPath := app ++ [0x2F, 0x2E, 0x2E, 0x2F, 0x78]

/-- `C:\webpage` -/
def webpage : WString :=
  [0x43, 0x3A, 0x5C, 0x77, 0x65, 0x62, 0x70, 0x61, 0x67, 0x65]

/-- It is answered with `C:\x`, which is not in `C:\webpage`. -/
theorem staticFileRouting_leaves : staticRoute outsideRequest = true ∧
    staticFileRouting widen (fun _ => 1) outsideRequest webpage =
      .ok (.sendFile (webpage ++ [0x2F, 0x2E, 0x2E, 0x2F, 0x78]) false) ∧
    ¬ InFolder webpage (webpage ++ [0x2F, 0x2E, 0x2E, 0x2F, 0x78]) := by
  have hpath : resolve isSeparator fullStop (webpage ++ [0x2F, 0x2E, 0x2E, 0x2F, 0x78]) =
      ⟨false, [[0x43, 0x3A], [0x78]]⟩ := by
    decide
  refine ⟨by decide, by decide, ?_⟩
  intro hinside
  obtain ⟨s, more, hs, -, -, hres⟩ := hinside
  have hfolder : (resolve isSeparator fullStop (webpage ++ [s])).names =
      [[0x43, 0x3A], [0x77, 0x65, 0x62, 0x70, 0x61, 0x67, 0x65]] := by
    obtain rfl | rfl : s = 0x2F ∨ s = 0x5C := by simpa [isSeparator] using hs
    · decide
    · decide
  rw [hpath, hfolder] at hres
  simp at hres

end BtDht.StaticFile
