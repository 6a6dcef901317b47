import CardScanner.Codec

/-!
# Languages in parcels

`OcrLanguage` and the `InstallStatus` in it are written to an `android.os.Parcel`
by one method and read back by another.  The parcel itself is a parameter: its
operations are codecs, that is, each read gives back what the matching write
wrote.

The two methods of `OcrLanguage` agree on order and types, but neither has the
download id.  Reading back what was written therefore ends where the writing
ended and gives the language with its id set to 0
(`createFromParcel_writeToParcel`).
-/

namespace CardScanner.Parceled

open Codec

/-! ## The objects and the parcel -/

/-- An `InstallStatus` with the fields as the object has them. -/
structure InstallStatus where
  isInstalled : Bool
  installedSize : Int64
  deriving DecidableEq

/-- An `OcrLanguage` with the fields as the object has them; all but the two
primitive ones may be `null`. -/
structure OcrLanguage where
  downloading : Bool
  downloadId : Int64
  languageCode : Option (List Char)
  displayText : Option (List Char)
  installStatus : Option InstallStatus
  deriving DecidableEq

/-- The operations of `android.os.Parcel` that the two classes use.  A value of
`writeValue` starts with its type: the name of a parcelable class, or none for
`null`. -/
structure Parcel (ω : Type) where
  byte : Codec ω Int8
  long : Codec ω Int64
  string : Codec ω (Option (List Char))
  valueType : Codec ω (Option String)

variable {ω V : Type} (parcel : Parcel ω)

/-- `writeValue` of a parcelable object. -/
def Parcel.writeValue (className : String) (writeToParcel : V → List ω) : Option V → List ω
  | none => parcel.valueType.write none
  | some v => parcel.valueType.write (some className) ++ writeToParcel v

/-- `readValue`, cast to the class; it fails on an object of another one. -/
def Parcel.readValue (className : String) (createFromParcel : Reader ω V) :
    Reader ω (Option V) := do
  match ← parcel.valueType.read with
  | none => return none
  | some name => if name = className then return some (← createFromParcel) else failure

/-! ## `InstallStatus` -/

/-- `writeToParcel` of the status: a byte for the flag, and the size. -/
def InstallStatus.writeToParcel (status : InstallStatus) : List ω :=
  parcel.byte.write (if status.isInstalled then 1 else 0) ++
  parcel.long.write status.installedSize

/-- `InstallStatus(Parcel)`: any byte but 0 is read as true. -/
def InstallStatus.createFromParcel : Reader ω InstallStatus := do
  let isInstalled ← parcel.byte.read
  let installedSize ← parcel.long.read
  return { isInstalled := isInstalled != 0, installedSize := installedSize }

/-! ## `OcrLanguage` -/

def installStatusClass : String :=
  "com.ldz.fpt.businesscardscannerandroid.activity.ocr_language_activity.InstallStatus"

/-- `writeToParcel` of the language.  The download id is not among what is
written. -/
def OcrLanguage.writeToParcel (language : OcrLanguage) : List ω :=
  parcel.byte.write (if language.downloading then 1 else 0) ++
  parcel.string.write language.languageCode ++
  parcel.string.write language.displayText ++
  parcel.writeValue installStatusClass (InstallStatus.writeToParcel parcel) language.installStatus

/-- `OcrLanguage(Parcel)`; the field it does not set keeps Java's default. -/
def OcrLanguage.createFromParcel : Reader ω OcrLanguage := do
  let downloading ← parcel.byte.read
  let languageCode ← parcel.string.read
  let displayText ← parcel.string.read
  let installStatus ←
    parcel.readValue installStatusClass (InstallStatus.createFromParcel parcel)
  return {
    downloading := downloading != 0, downloadId := 0, languageCode := languageCode,
    displayText := displayText, installStatus := installStatus }

/-! ## What comes back -/

/-- A flag survives the byte it is written as. -/
theorem flag_of_byte (flag : Bool) : ((if flag then 1 else 0 : Int8) != 0) = flag := by
  cases flag <;> rfl

/-- A parcelable object comes back from `readValue` if it does from its own
reader, and so does `null`. -/
theorem run_readValue_writeValue {className : String} {writeToParcel : V → List ω}
    {createFromParcel : Reader ω V}
    (h : ∀ v rest, createFromParcel.run (writeToParcel v ++ rest) = some (v, rest))
    (value : Option V) (rest : List ω) :
    (parcel.readValue className createFromParcel).run
      (parcel.writeValue className writeToParcel value ++ rest) = some (value, rest) := by
  unfold Parcel.readValue Parcel.writeValue
  cases value with
  | none =>
      rw [run_read_bind]
      rfl
  | some v =>
      rw [List.append_assoc, run_read_bind]
      simp only [if_true]
      rw [StateT.run_bind, h]
      rfl

/-- An `InstallStatus` comes back as it was. -/
theorem InstallStatus.createFromParcel_writeToParcel (status : InstallStatus) (rest : List ω) :
    (createFromParcel parcel).run (status.writeToParcel parcel ++ rest) = some (status, rest) := by
  unfold createFromParcel writeToParcel
  rw [List.append_assoc, run_read_bind, run_read_bind, flag_of_byte]
  rfl

/-- A language comes back without its download id; nothing of the stream is
left over or taken too much. -/
theorem OcrLanguage.createFromParcel_writeToParcel (language : OcrLanguage) (rest : List ω) :
    (createFromParcel parcel).run (language.writeToParcel parcel ++ rest) =
      some ({ language with downloadId := 0 }, rest) := by
  unfold createFromParcel writeToParcel
  simp only [List.append_assoc, run_read_bind]
  rw [StateT.run_bind, run_readValue_writeValue parcel
    (InstallStatus.createFromParcel_writeToParcel parcel), flag_of_byte]
  rfl

/-! ## The round trip -/

/-- Whatever follows it in the parcel, the language is read back as it was
written, and the reading ends where the writing did. -/
def RoundTrips (language : OcrLanguage) : Prop :=
  ∀ rest, (OcrLanguage.createFromParcel parcel).run (language.writeToParcel parcel ++ rest) =
    some (language, rest)

/-- **Exactly the languages without a download id survive a parcel.**  Every
field but that one is written and read at the same place; it is neither
written nor read, and comes back as 0. -/
theorem roundTrips_iff (language : OcrLanguage) :
    RoundTrips parcel language ↔ language.downloadId = 0 := by
  unfold RoundTrips
  simp only [OcrLanguage.createFromParcel_writeToParcel]
  constructor
  · intro h
    have hsame := (Prod.mk.inj (Option.some.inj (h []))).1
    exact (congrArg OcrLanguage.downloadId hsame).symm
  · intro hid rest
    cases language
    subst hid
    rfl

/-- What a parcel may keep: one word for each value written. -/
inductive Word where
  | byte (v : Int8)
  | long (v : Int64)
  | string (v : Option (List Char))
  | valueType (name : Option String)

/-- The parcel of such words. -/
def wordParcel : Parcel Word where
  byte := .ofWord .byte (fun | .byte v => some v | _ => none) fun _ => rfl
  long := .ofWord .long (fun | .long v => some v | _ => none) fun _ => rfl
  string := .ofWord .string (fun | .string v => some v | _ => none) fun _ => rfl
  valueType := .ofWord .valueType (fun | .valueType v => some v | _ => none) fun _ => rfl

/-- English while download 17 fetches it. -/
def english : OcrLanguage where
  downloading := true
  downloadId := 17
  languageCode := some ['e', 'n', 'g']
  displayText := some ['E', 'n', 'g', 'l', 'i', 's', 'h']
  installStatus := some ⟨false, 0⟩

/-- It comes back as a download without an id. -/
theorem not_roundTrips : ¬ ∀ language, RoundTrips wordParcel language := by
  intro h
  have hsame := (Prod.mk.inj (Option.some.inj
    ((OcrLanguage.createFromParcel_writeToParcel wordParcel english []).symm.trans
      (h english [])))).1
  exact absurd (congrArg OcrLanguage.downloadId hsame) (by decide)

end CardScanner.Parceled
