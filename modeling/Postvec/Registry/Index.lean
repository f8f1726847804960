import Mathlib.Data.Char
import Mathlib.Data.List.Lex
import Mathlib.Data.List.Sort
import Postvec.Format.Grammar
import Postvec.Lib.Kahn

/-!
# The registry index and its validator

`validate_with` of the registry's schema crate, check by check in the order of the source. There is
one validator with two policies: publishers and clients refuse an entitlement they do not know
(`strict`), the gateway admits it in a stored index (`acceptUnknown`) and filters it later. An index
that is refused is refused with the first fault found (`Fault`), whose message is `Fault.message`;
how the standard library prints a text in quotes is a parameter there.

The fields that nothing here reads (quantization, provenance, dates, the evaluation, the summary)
are left out, as is the JSON around it; the withdrawal flag is read by `pull` only. Sizes and
counters are natural numbers: nothing is computed with them but the counters of the cycle check,
where lowering a zero counter is a fault of its own (`overflow`).
-/

namespace Postvec.Registry

open Machine

/-! ## 1. The index -/

/-- How many models an index lists at most. -/
def maxModels : Nat := 4096

/-- How long a model name is at most. -/
def maxNameBytes : Nat := 128

/-- How many items each list of a model, or of the viewer, has at most. -/
def maxListItems : Nat := 64

/-- How many sources an archive has at most. -/
def maxSources : Nat := 8

/-- The largest size a ustar header can state. -/
def maxArchiveBytes : Nat := 0o77777777777

/-- How long an entitlement id is at most. -/
def maxEntitlementIdBytes : Nat := 64

/-- How long a licence id is at most. -/
def maxLicenseIdBytes : Nat := 128

/-- How long the version of a licence is at most. -/
def maxLicenseVersionBytes : Nat := 64

/-- How long the address of a terms document is at most. -/
def maxLicenseUrlBytes : Nat := 512

/-- How long the date an entitlement ends on is at most, as text. -/
def maxExpiresAtBytes : Nat := 64

/-- The last revision a model may have; the first is 1. -/
def maxRevision : Nat := 1000000

/-- The kinds of models this build understands. -/
def knownModelTypes : List Text :=
  ["embed".toList, "convert".toList, "embed-bridge".toList, "convert-bridge".toList]

/-- The entitlements this build understands. -/
def knownEntitlements : List Text := ["postvec-catalog".toList]

/-- The acceptance policies this build understands. -/
def knownLicenseAcceptance : List Text := ["none".toList, "notice".toList, "organization".toList]

/-- The archive of a model: what a download is checked against, and where it is. -/
structure ArchiveInfo where
  digest : Text
  size : Nat
  installedSize : Nat
  sources : List Text
deriving DecidableEq

/-- One model of the index, with the fields the validator or `pull` reads. -/
structure IndexModel where
  name : Text
  access : Text
  modelType : Text
  backend : Text
  sourceDim : Option Nat
  targetDim : Option Nat
  sequenceLen : Option Nat
  license : Option Text
  licenseVersion : Option Text
  licenseUrl : Option Text
  licenseAcceptance : Option Text
  dependencies : List Text
  postvecRequires : List Text
  minPostvecVersion : Option Text
  withdrawn : Bool
  revision : Option Nat
  requiredEntitlements : List Text
  archive : ArchiveInfo
deriving DecidableEq

/-- An entitlement the caller holds, and from where. -/
structure ViewerEntitlement where
  id : Text
  source : Text
  expiresAt : Option Text
deriving DecidableEq

/-- The index, as it is served on a channel. -/
structure Index where
  channel : Text
  authenticated : Bool
  models : List IndexModel
  /-- the `viewer` block: the caller's entitlements -/
  viewer : Option (List ViewerEntitlement)
deriving DecidableEq

/-- The model may be served to anyone. -/
def IndexModel.isPublic (m : IndexModel) : Bool := m.access == "public".toList

/-- The effective acceptance policy: an absent field is `none`. -/
def IndexModel.acceptance (m : IndexModel) : Text := m.licenseAcceptance.getD "none".toList

/-- Both kinds of requirement; `pull` follows both. -/
def IndexModel.requirements (m : IndexModel) : List Text := m.dependencies ++ m.postvecRequires

/-- What happens to an entitlement that this build does not know. -/
inductive EntitlementIdPolicy where
  | strict
  | acceptUnknown
deriving DecidableEq, Repr

/-! ## 2. Faults -/

/-- What is wrong with a token (a model name, a licence id, an entitlement id). -/
inductive TokenFault where
  | empty
  | long
  | start (token : Text)
  | byte (token : Text) (bad : UInt8)
deriving DecidableEq

/-- The rules for one kind of token. -/
structure TokenRule where
  label : String
  max : Nat
  allowed : Char → Bool
  /-- added to the message about a forbidden byte -/
  hint : String

/-- What is wrong with the version of a licence. -/
inductive LicenseVersionFault where
  | empty
  | long
  | byte (version : Text) (bad : UInt8)
deriving DecidableEq

/-- What is wrong with the address of a terms document. -/
inductive LicenseUrlFault where
  | long
  | byte (url : Text) (bad : UInt8)
  | scheme (url : Text)
  | credentials (url : Text)
  | host (url : Text)
deriving DecidableEq

/-- What is wrong with one model, or with a model and one it requires. -/
inductive ModelFault where
  | access (value : Text)
  | privateListed
  | backend (fault : TokenFault)
  | modelType (value : Text)
  | zero (label : String)
  | revision (value : Nat)
  | minVersion (value : Text)
  | licenseId (fault : TokenFault)
  | acceptance (value : Text)
  | termsWithoutLicense
  | licenseVersion (fault : LicenseVersionFault)
  | licenseUrl (fault : LicenseUrlFault)
  | unversioned (acceptance : Text)
  | versionWithoutUrl
  | organizationPublic
  | terms (license : Text) (version : Option Text)
  | longList
  | repeated (dep : Text)
  | longEntitlements
  | entitlementId (fault : TokenFault)
  | unknownEntitlement (id : Text)
  | unsortedEntitlements
  | publicEntitled
  | digest (value : Text)
  | size (value : Nat)
  | installedSize (value : Nat)
  | sources
  | missing (dep : Text)
  | privateDependency (dep : Text)
  | wider (dep required : Text)
deriving DecidableEq

/-- Why an index is refused. -/
inductive Fault where
  | tooMany (count : Nat)
  | publicAuthenticated
  | privateAnonymous
  | channel (value : Text)
  | name (fault : TokenFault)
  | listedTwice (name : Text)
  | model (name : Text) (fault : ModelFault)
  | viewerAnonymous
  | longViewer
  | viewerId (fault : TokenFault)
  | unsortedViewer
  | viewerSource (id source : Text)
  | viewerExpiry (id : Text)
  | cycle
  /-- a counter of the cycle check would go below zero; the earlier checks exclude it -/
  | overflow
deriving DecidableEq

/-- `valid_model_name`: also the rule for a backend. -/
def modelNameRule : TokenRule where
  label := "model name"
  max := maxNameBytes
  allowed := fun c => ('a' ≤ c && c ≤ 'z') || ('0' ≤ c && c ≤ '9') || c == '.' ||
    c == '_' || c == '-'
  hint := ""

/-- `valid_entitlement_id`: neither dots nor underscores. -/
def entitlementIdRule : TokenRule where
  label := "entitlement id"
  max := maxEntitlementIdBytes
  allowed := fun c => ('a' ≤ c && c ≤ 'z') || ('0' ≤ c && c ≤ '9') || c == '-'
  hint := ""

/-- `valid_license_id`: the name rule, with a message of its own. -/
def licenseIdRule : TokenRule where
  label := "license id"
  max := maxLicenseIdBytes
  allowed := fun c => ('a' ≤ c && c ≤ 'z') || ('0' ≤ c && c ≤ '9') || c == '.' ||
    c == '_' || c == '-'
  hint := " (it must be usable as an `--accept-license <id>@<version>` token)"

section Messages

-- how a text and how a character is printed with `:?`
variable (quoted : Text → String) (quotedChar : Char → String)

/-- A byte, printed as the character of that number (`char::from`). -/
def byteQuoted (b : UInt8) : String := quotedChar (Char.ofNat b.toNat)

/-- The message about a token, in the words of its rule. -/
def TokenFault.message (rule : TokenRule) : TokenFault → String
  | .empty => rule.label ++ " is empty"
  | .long => rule.label ++ " exceeds " ++ toString rule.max ++ " bytes"
  | .start t => rule.label ++ " " ++ quoted t ++ " must start with a lowercase letter or digit"
  | .byte t b =>
    rule.label ++ " " ++ quoted t ++ " contains forbidden byte " ++
    byteQuoted quotedChar b ++ rule.hint

/-- The message about a licence's version. -/
def LicenseVersionFault.message : LicenseVersionFault → String
  | .empty => "license_version is empty"
  | .long => "license_version exceeds " ++ toString maxLicenseVersionBytes ++ " bytes"
  | .byte v b =>
    "license_version " ++ quoted v ++ " contains forbidden byte " ++ byteQuoted quotedChar b ++
      " (printable ASCII without whitespace or `@` only — it must be usable as an " ++
      "`--accept-license <id>@<version>` token)"

/-- The message about a document's address. -/
def LicenseUrlFault.message : LicenseUrlFault → String
  | .long => "license_url exceeds " ++ toString maxLicenseUrlBytes ++ " bytes"
  | .byte u b =>
    "license_url " ++ quoted u ++ " contains forbidden byte " ++ byteQuoted quotedChar b
  | .scheme u => "license_url " ++ quoted u ++ " is not an absolute https:// URL"
  | .credentials u =>
    "license_url " ++ quoted u ++
    " embeds credentials, which a canonical document URL never carries"
  | .host u => "license_url " ++ quoted u ++ " has no host"

/-- A list of known words, in a message. -/
def listed (ts : List Text) : String := String.intercalate ", " (ts.map String.ofList)

/-- The message about a model. -/
def ModelFault.message (name : Text) (f : ModelFault) : String :=
  let n := String.ofList name
  match f with
  | .access a => n ++ ": unknown access class " ++ quoted a
  | .privateListed => n ++ ": a public-channel index may not list a private entry"
  | .backend e => n ++ ": backend: " ++ e.message quoted quotedChar modelNameRule
  | .modelType t =>
    n ++ ": unknown model_type " ++ quoted t ++ " (this build understands " ++
      listed knownModelTypes ++ ")"
  | .zero label => n ++ ": " ++ label ++ " is zero"
  | .revision r =>
    n ++ ": revision " ++ toString r ++ " is outside 1..=" ++ toString maxRevision
  | .minVersion v => n ++ ": min_postvec_version " ++ quoted v ++ " is not a valid version"
  | .licenseId e => n ++ ": " ++ e.message quoted quotedChar licenseIdRule
  | .acceptance a =>
    n ++ ": unknown license_acceptance " ++ quoted a ++ " (this build understands " ++
      listed knownLicenseAcceptance ++ ")"
  | .termsWithoutLicense =>
    n ++ ": terms metadata (license_version/license_url/license_acceptance) without a license id"
  | .licenseVersion e => n ++ ": " ++ e.message quoted quotedChar
  | .licenseUrl e => n ++ ": " ++ e.message quoted quotedChar
  | .unversioned a =>
    n ++ ": license_acceptance " ++ quoted a ++
      " requires a license_version and a canonical HTTPS license_url"
  | .versionWithoutUrl =>
    n ++ ": license_version and license_url must be both present or both absent"
  | .organizationPublic =>
    n ++ ": license_acceptance \"organization\" is invalid on a public entry — the anonymous " ++
      "channel has no principal whose acceptance could be checked"
  | .terms l v =>
    n ++ ": license " ++ quoted l ++ " version " ++ quoted (v.getD "-".toList) ++
      " appears elsewhere in this index with a different URL or acceptance policy — one id and " ++
      "version must identify one document"
  | .longList => n ++ ": dependency list exceeds " ++ toString maxListItems ++ " items"
  | .repeated d => n ++ ": " ++ quoted d ++ " is listed more than once as a requirement"
  | .longEntitlements =>
    n ++ ": required_entitlements exceeds " ++ toString maxListItems ++ " items"
  | .entitlementId e => n ++ ": " ++ e.message quoted quotedChar entitlementIdRule
  | .unknownEntitlement i =>
    n ++ ": unknown entitlement id " ++ quoted i ++ " (this build understands " ++
      listed knownEntitlements ++ ")"
  | .unsortedEntitlements => n ++ ": required_entitlements must be unique and sorted"
  | .publicEntitled =>
    n ++ ": a public entry must not require entitlements — the anonymous channel has no caller " ++
      "to hold one"
  | .digest d => n ++ ": digest " ++ quoted d ++ " is not sha256:<64 lowercase hex>"
  | .size s => n ++ ": implausible archive size " ++ toString s
  | .installedSize s => n ++ ": implausible installed size " ++ toString s
  | .sources => n ++ ": archive must list between 1 and " ++ toString maxSources ++ " sources"
  | .missing d => n ++ " requires " ++ quoted d ++ ", which the index does not list"
  | .privateDependency d => "public entry " ++ n ++ " requires private entry " ++ quoted d
  | .wider d r =>
    n ++ " requires " ++ quoted d ++ ", whose entitlement " ++ quoted r ++
      " it does not itself require — a dependency's required_entitlements must be a subset of " ++
      "the requiring model's"

/-- The message `validate_with` fails with. -/
def Fault.message : Fault → String
  | .tooMany n =>
    "registry index lists " ++ toString n ++ " models; the limit is " ++ toString maxModels
  | .publicAuthenticated => "a public-channel index must not claim authenticated: true"
  | .privateAnonymous => "a private-channel index must set authenticated: true"
  | .channel c => "registry index has unknown channel " ++ quoted c
  | .name e => e.message quoted quotedChar modelNameRule
  | .listedTwice n => "registry index lists " ++ quoted n ++ " more than once"
  | .model n f => f.message quoted quotedChar n
  | .viewerAnonymous =>
    "a public/anonymous index must not carry a viewer block — viewer metadata exists only on " ++
      "authenticated responses"
  | .longViewer => "viewer.entitlements exceeds " ++ toString maxListItems ++ " items"
  | .viewerId e => "viewer: " ++ e.message quoted quotedChar entitlementIdRule
  | .unsortedViewer => "viewer.entitlements must be unique and sorted by id"
  | .viewerSource i s =>
    "viewer: entitlement " ++ quoted i ++ " has unknown source " ++ quoted s ++
      " (expected \"default\" or \"grant\")"
  | .viewerExpiry i => "viewer: entitlement " ++ quoted i ++ " has an implausible expires_at"
  | .cycle => "registry index contains a dependency cycle"
  | .overflow => "attempt to subtract with overflow"

end Messages

/-! ## 3. Checks of single values -/

/-- A check that fails with `f`. -/
def require {ε : Type} (ok : Bool) (f : ε) : Except ε Unit := if ok then .ok () else .error f

/-- The first byte of a character. -/
def firstByte (c : Char) : UInt8 := (String.utf8EncodeChar c).headD 0

/-- `valid_model_name`, `valid_entitlement_id`, `valid_license_id`. Only ASCII is allowed, so the
    first bad byte is the first byte of the first bad character. -/
def validToken (rule : TokenRule) (t : Text) : Except TokenFault Unit := do
  require (!t.isEmpty) .empty
  require (byteLen t ≤ rule.max) .long
  require (t.head?.any fun c => ('a' ≤ c && c ≤ 'z') || ('0' ≤ c && c ≤ '9')) (.start t)
  match t.find? fun c => !rule.allowed c with
  | none => .ok ()
  | some c => .error (.byte t (firstByte c))

/-- `valid_model_name` -/
def validModelName : Text → Except TokenFault Unit := validToken modelNameRule

/-- `valid_entitlement_id` -/
def validEntitlementId : Text → Except TokenFault Unit := validToken entitlementIdRule

/-- `valid_license_id` -/
def validLicenseId : Text → Except TokenFault Unit := validToken licenseIdRule

/-- `is_ascii_graphic` -/
def isGraphic (c : Char) : Bool := '!' ≤ c && c ≤ '~'

/-- `valid_license_version`: printable, and no `@`. -/
def validLicenseVersion (v : Text) : Except LicenseVersionFault Unit := do
  require (!v.isEmpty) .empty
  require (byteLen v ≤ maxLicenseVersionBytes) .long
  match v.find? fun c => !isGraphic c || c == '@' with
  | none => .ok ()
  | some c => .error (.byte v (firstByte c))

/-- `valid_license_url`: absolute, over https, with a host and without credentials. -/
def validLicenseUrl (u : Text) : Except LicenseUrlFault Unit := do
  require (byteLen u ≤ maxLicenseUrlBytes) .long
  match u.find? fun c => !isGraphic c with
  | some c => .error (.byte u (firstByte c))
  | none =>
    if !("https://".toList).isPrefixOf u then .error (.scheme u)
    else
      let authority := (u.drop 8).takeWhile fun c => !(c == '/' || c == '?' || c == '#')
      if authority.contains '@' then .error (.credentials u)
      else require (!(authority.takeWhile (· != ':')).isEmpty) (.host u)

/-- `char::is_whitespace` -/
def isWhitespace (c : Char) : Bool :=
  (9 ≤ c.toNat && c.toNat ≤ 13) || c.toNat == 0x20 || c.toNat == 0x85 || c.toNat == 0xA0 ||
    c.toNat == 0x1680 || (0x2000 ≤ c.toNat && c.toNat ≤ 0x200A) || c.toNat == 0x2028 ||
    c.toNat == 0x2029 || c.toNat == 0x202F || c.toNat == 0x205F || c.toNat == 0x3000

/-- `str::trim` -/
def trim (t : Text) : Text := ((t.dropWhile isWhitespace).reverse.dropWhile isWhitespace).reverse

/-- The number some decimal digits spell. -/
def digitsValue (ds : Text) : Nat := ds.foldl (fun n c => 10 * n + (c.toNat - '0'.toNat)) 0

/-- `is_ascii_digit` -/
def isDigit (c : Char) : Bool := '0' ≤ c && c ≤ '9'

/-- Only the first of the parts between dots is looked at: its first run of digits must be a
    `u64`. -/
def versionParses (raw : Text) : Bool :=
  let core := (trim raw).takeWhile fun c => !(c == '-' || c == '+')
  let major := ((core.takeWhile (· != '.')).dropWhile fun c => !isDigit c).takeWhile isDigit
  !major.isEmpty && digitsValue major < 2 ^ 64

/-- A lower-case hexadecimal digit. -/
def isHex (c : Char) : Bool := isDigit c || ('a' ≤ c && c ≤ 'f')

/-- `parse_sha256_digest` -/
def validDigest (d : Text) : Bool :=
  ("sha256:".toList).isPrefixOf d && decide (byteLen (d.drop 7) = 64) && (d.drop 7).all isHex

/-! ## 4. One model -/

/-- What the loop over the models remembers: the names, and each terms document (a licence id with a
    version) with its URL and acceptance policy. -/
structure Seen where
  names : List Text
  terms : List ((Text × Option Text) × (Option Text × Text))

/-- Before the first model. -/
def Seen.nothing : Seen := ⟨[], []⟩

/-- Two entries that name one terms document must agree on it. -/
def noteTerms (terms : List ((Text × Option Text) × (Option Text × Text))) (m : IndexModel) :
    Except ModelFault (List ((Text × Option Text) × (Option Text × Text))) :=
  match m.license with
  | none => .ok terms
  | some license =>
    match terms.lookup (license, m.licenseVersion) with
    | none => .ok (((license, m.licenseVersion), (m.licenseUrl, m.acceptance)) :: terms)
    | some existing =>
      if existing = (m.licenseUrl, m.acceptance) then .ok terms
      else .error (.terms license m.licenseVersion)

/-- The requirements are listed once each. -/
def checkRepeated (seen : List Text) : List Text → Except ModelFault Unit
  | [] => .ok ()
  | d :: ds => if d ∈ seen then .error (.repeated d) else checkRepeated (d :: seen) ds

/-- The loop over `required_entitlements`; `previous` is the id before. -/
def checkEntitlements (policy : EntitlementIdPolicy) (previous : Option Text) :
    List Text → Except ModelFault Unit
  | [] => .ok ()
  | i :: is => do
    (validEntitlementId i).mapError .entitlementId
    require (policy ≠ .strict || knownEntitlements.contains i) (.unknownEntitlement i)
    require (previous.all fun p => decide (p < i)) .unsortedEntitlements
    checkEntitlements policy (some i) is

/-- The access class, and that it may be on this channel. -/
def checkAccess (channel : Text) (m : IndexModel) : Except ModelFault Unit := do
  require (m.access == "public".toList || m.access == "private".toList) (.access m.access)
  require (channel != "public".toList || m.isPublic) .privateListed

/-- What the model says of itself. -/
def checkShape (m : IndexModel) : Except ModelFault Unit := do
  (validModelName m.backend).mapError .backend
  require (knownModelTypes.contains m.modelType) (.modelType m.modelType)
  require (m.sourceDim ≠ some 0) (.zero "source_dim")
  require (m.targetDim ≠ some 0) (.zero "target_dim")
  require (m.sequenceLen ≠ some 0) (.zero "sequence_len")
  match m.revision with
  | none => .ok ()
  | some r => require (r ≠ 0 && r ≤ maxRevision) (.revision r)
  match m.minPostvecVersion with
  | none => .ok ()
  | some v => require (versionParses v) (.minVersion v)

/-- The terms of use. -/
def checkLicense (m : IndexModel) : Except ModelFault Unit := do
  match m.license with
  | none => .ok ()
  | some l => (validLicenseId l).mapError .licenseId
  require (knownLicenseAcceptance.contains m.acceptance) (.acceptance m.acceptance)
  require (m.license.isSome ||
    !(m.licenseVersion.isSome || m.licenseUrl.isSome || m.licenseAcceptance.isSome))
    .termsWithoutLicense
  match m.licenseVersion, m.licenseUrl with
  | some v, some u => do
    (validLicenseVersion v).mapError .licenseVersion
    (validLicenseUrl u).mapError .licenseUrl
  | none, none => require (m.acceptance == "none".toList) (.unversioned m.acceptance)
  | _, _ => .error .versionWithoutUrl
  require (!(m.isPublic && m.acceptance == "organization".toList)) .organizationPublic

/-- The requirements and entitlements. -/
def checkLists (policy : EntitlementIdPolicy) (m : IndexModel) : Except ModelFault Unit := do
  require (m.dependencies.length ≤ maxListItems) .longList
  require (m.postvecRequires.length ≤ maxListItems) .longList
  checkRepeated [] m.requirements
  require (m.requiredEntitlements.length ≤ maxListItems) .longEntitlements
  checkEntitlements policy none m.requiredEntitlements
  require (!m.isPublic || m.requiredEntitlements.isEmpty) .publicEntitled

/-- The digest, the two sizes and the number of sources. -/
def checkArchive (m : IndexModel) : Except ModelFault Unit := do
  require (validDigest m.archive.digest) (.digest m.archive.digest)
  require (m.archive.size ≠ 0 && m.archive.size ≤ maxArchiveBytes) (.size m.archive.size)
  require (m.archive.installedSize ≤ maxArchiveBytes) (.installedSize m.archive.installedSize)
  require (!m.archive.sources.isEmpty && m.archive.sources.length ≤ maxSources) .sources

/-- The checks whose messages begin with the model's name. -/
def checkEntry (policy : EntitlementIdPolicy) (channel : Text)
    (terms : List ((Text × Option Text) × (Option Text × Text))) (m : IndexModel) :
    Except ModelFault (List ((Text × Option Text) × (Option Text × Text))) := do
  checkAccess channel m
  checkShape m
  checkLicense m
  let terms ← noteTerms terms m
  checkLists policy m
  checkArchive m
  return terms

/-- The body of the loop over the models. -/
def checkModel (policy : EntitlementIdPolicy) (channel : Text) (seen : Seen) (m : IndexModel) :
    Except Fault Seen := do
  (validModelName m.name).mapError .name
  require (!seen.names.contains m.name) (.listedTwice m.name)
  let terms ← (checkEntry policy channel seen.terms m).mapError (.model m.name)
  return ⟨m.name :: seen.names, terms⟩

/-- The first loop over the models. -/
def checkModels (policy : EntitlementIdPolicy) (channel : Text) (seen : Seen) :
    List IndexModel → Except Fault Unit
  | [] => .ok ()
  | m :: ms => do
    let seen ← checkModel policy channel seen m
    checkModels policy channel seen ms

/-! ## 5. The index as a whole -/

/-- The channel and the `authenticated` flag agree. -/
def checkChannel (index : Index) : Except Fault Unit :=
  if index.channel = "public".toList then require (!index.authenticated) .publicAuthenticated
  else if index.channel = "private".toList then require index.authenticated .privateAnonymous
  else .error (.channel index.channel)

/-- The entitlements of a requirement are among the model's own. -/
def checkSubset (m : IndexModel) (dep : Text) : List Text → Except ModelFault Unit
  | [] => .ok ()
  | r :: rs => do
    require (m.requiredEntitlements.contains r) (.wider dep r)
    checkSubset m dep rs

/-- A model and one of its requirements. -/
def checkRequirement (models : List IndexModel) (m : IndexModel) (dep : Text) :
    Except ModelFault Unit :=
  match models.find? fun t => t.name == dep with
  | none => .error (.missing dep)
  | some target => do
    require (!(m.isPublic && !target.isPublic)) (.privateDependency dep)
    checkSubset m dep target.requiredEntitlements

/-- The loop over what a model requires. -/
def checkRequirements (models : List IndexModel) (m : IndexModel) :
    List Text → Except ModelFault Unit
  | [] => .ok ()
  | dep :: deps => do
    checkRequirement models m dep
    checkRequirements models m deps

/-- The second loop over the models: every name is known by now. -/
def checkReferences (models : List IndexModel) : List IndexModel → Except Fault Unit
  | [] => .ok ()
  | m :: ms => do
    (checkRequirements models m m.requirements).mapError (.model m.name)
    checkReferences models ms

/-- The loop over the caller's entitlements; `previous` is the id before. -/
def checkViewerEntitlements (previous : Option Text) : List ViewerEntitlement → Except Fault Unit
  | [] => .ok ()
  | e :: es => do
    (validEntitlementId e.id).mapError .viewerId
    require (previous.all fun p => decide (p < e.id)) .unsortedViewer
    require (e.source == "default".toList || e.source == "grant".toList)
      (.viewerSource e.id e.source)
    require (e.expiresAt.all fun x => !x.isEmpty && decide (byteLen x ≤ maxExpiresAtBytes))
      (.viewerExpiry e.id)
    checkViewerEntitlements (some e.id) es

/-- The `viewer` block: only a caller who is known has one. -/
def checkViewer (index : Index) : Except Fault Unit :=
  match index.viewer with
  | none => .ok ()
  | some entitlements => do
    require index.authenticated .viewerAnonymous
    require (entitlements.length ≤ maxListItems) .longViewer
    checkViewerEntitlements none entitlements

/-- The models and what they require. -/
def graph (models : List IndexModel) : List (Text × List Text) :=
  models.map fun m => (m.name, m.requirements)

/-- `in_degree`, as it is at first. -/
def inDegree (models : List IndexModel) (name : Text) : Nat :=
  ((graph models).lookup name).elim 0 List.length

/-- The models that require nothing, the last in the order of names on top. -/
def roots (models : List IndexModel) : List Text :=
  (((models.map IndexModel.name).insertionSort fun a b => a ≤ b).filter fun n =>
    inDegree models n == 0).reverse

/-- The cycle check: the models that can be taken in turn are all of them. -/
def checkCycles (models : List IndexModel) : Except Fault Unit :=
  match Kahn.visit (graph models) (inDegree models) (roots models) with
  | none => .error .overflow
  | some visited => require (visited == models.length) .cycle

/-- `validate_with` -/
def validateWith (policy : EntitlementIdPolicy) (index : Index) : Except Fault Unit := do
  require (index.models.length ≤ maxModels) (.tooMany index.models.length)
  checkChannel index
  checkModels policy index.channel .nothing index.models
  checkReferences index.models index.models
  checkViewer index
  checkCycles index.models

/-- `validate`, of publishers and clients. -/
def validate : Index → Except Fault Unit := validateWith .strict

/-- `validate_gateway_base` -/
def validateGatewayBase : Index → Except Fault Unit := validateWith .acceptUnknown

end Postvec.Registry
