/-
  The configuration file — `CfgFileOptions`: the constructor that reads it, `Update` and `Find`.

  All options are in one map, under section name, `:` and option name; a second map has the parent of
  each section, the empty text when it has none.  Both are filled with `std::map::insert`, which leaves
  an entry that is there as it is.  The constructor reads a file; here it gets the text of the file.

  THE CRUX.  A parent has to be declared before the section that inherits from it, and a section is
  declared once, so links lead to earlier sections, or to the empty name (`Declared.order`).
-/
import Mathlib.Data.List.Lex
import Zapdos.Lib.Chase
import Zapdos.Lib.Merge
import Zapdos.Search.BaseUtils

namespace Zapdos.Utils

open Zapdos.Lib Zapdos.Store

/-- `ConfigException`. -/
structure ConfigException where
  msg : Bytes
  deriving DecidableEq, Repr

/-- `throw ConfigException(msg + text)`. -/
def configExc {α : Type*} (msg : String) (text : Bytes) : Except ConfigException α :=
  .error ⟨str msg ++ text⟩

structure CfgFileOptions where
  /-- section + name = value -/
  sectionMap : OrdMap Bytes Bytes := OrdMap.empty
  /-- section and inherits -/
  inheritMap : OrdMap Bytes Bytes := OrdMap.empty

/-- `MakeKey`. -/
def makeKey (section_ name : Bytes) : Bytes := section_ ++ 58 :: name

namespace CfgFileOptions

/-- `Update`. -/
def update (cfg : CfgFileOptions) (section_ name value : Bytes) : CfgFileOptions :=
  { cfg with sectionMap := cfg.sectionMap.emplace (makeKey section_ name) value }

/-- The value that is set for a pair. -/
def value (cfg : CfgFileOptions) (section_ name : Bytes) : Option Bytes :=
  cfg.sectionMap.get (makeKey section_ name)

/-- The loop of `Find` over the inherited sections, `fuel` rounds at most. -/
def findLoop (cfg : CfgFileOptions) (name : Bytes) : ℕ → Bytes → Option (Option Bytes)
  | 0, _ => none
  | fuel + 1, section_ =>
    match cfg.inheritMap.get section_ with
    | none => some none
    | some parent =>
      match cfg.value parent name with
      | some v => some (some v)
      | none => findLoop cfg name fuel parent

/-- The search of `Find`: the section itself, then the sections it inherits from. -/
def find (cfg : CfgFileOptions) (fuel : ℕ) (section_ name : Bytes) : Option (Option Bytes) :=
  match cfg.value section_ name with
  | some v => some (some v)
  | none => findLoop cfg name fuel section_

/-- `Find<T>`; `convert` is `ConvertAnyToAny<T>`. -/
def findAs {T : Type*} [Inhabited T] (convert : Bytes → Bool → Except ConfigException T)
    (cfg : CfgFileOptions) (fuel : ℕ) (section_ name : Bytes) (noThrow : Bool) :
    Option (Except ConfigException T) :=
  (cfg.find fuel section_ name).map fun
    | some v => convert v noThrow
    | none => if noThrow then .ok default else configExc "Invalid Config Param : " name

/-- `Check`. -/
def check (cfg : CfgFileOptions) (fuel : ℕ) (section_ name : Bytes) : Option Bool :=
  (cfg.find fuel section_ name).map Option.isSome

end CfgFileOptions

/-! ## The constructor -/

/-- `boost::algorithm::trim`. -/
def trim (x : Bytes) : Bytes := ((x.dropWhile isSpace).reverse.dropWhile isSpace).reverse

/-- What `std::getline` reads, line after line. -/
def getlines : Bytes → Bytes → List Bytes
  | [], line => if line.isEmpty then [] else [line]
  | c :: cs, line => if c = 10 then line :: getlines cs [] else getlines cs (line ++ [c])

/-- The section name of a header: what stands between the brackets, or all of the line when the second
    one is missing. -/
def sectionName (line : Bytes) : Bytes := trim ((line.drop 1).takeWhile (· ≠ 93))

/-- The parent of a header: what stands after the last colon, if there is one. -/
def inherits (line : Bytes) : Option Bytes :=
  if 58 ∈ line then some (trim (line.reverse.takeWhile (· ≠ 58)).reverse) else none

/-- The options so far and the section that is being read. -/
structure Parsing where
  cfg : CfgFileOptions := {}
  inSection : Bytes := []

/-- A header. -/
def parseHeader (p : Parsing) (line : Bytes) : Except ConfigException Parsing :=
  if line.findIdx? (· = 93) = some 0 then configExc "Configfile Syntax Error " line
  else if p.cfg.inheritMap.get (sectionName line) ≠ none then
    configExc "Duplicate Section : " (sectionName line)
  else
    match inherits line with
    | none =>
      .ok ⟨{ p.cfg with inheritMap := p.cfg.inheritMap.emplace (sectionName line) [] },
        sectionName line⟩
    | some parent =>
      if p.cfg.inheritMap.get parent = none then configExc "Invalid Inherit : " (sectionName line)
      else
        .ok ⟨{ p.cfg with inheritMap := p.cfg.inheritMap.emplace (sectionName line) parent },
          sectionName line⟩

/-- An option. -/
def parseOption (p : Parsing) (line : Bytes) : Except ConfigException Parsing :=
  if 61 ∉ line then configExc "Invalid Line : " line
  else
    let myname := trim (line.takeWhile (· ≠ 61))
    let myval := trim ((line.dropWhile (· ≠ 61)).drop 1)
    .ok { p with cfg := p.cfg.update p.inSection myname myval }

/-- One line: comments and blank lines are skipped. -/
def parseLine (p : Parsing) (line : Bytes) : Except ConfigException Parsing :=
  match trim line with
  | [] => .ok p
  | c :: cs =>
    if c = 35 ∨ c = 59 then .ok p
    else if c = 91 then parseHeader p (c :: cs)
    else parseOption p (c :: cs)

/-- The loop of the constructor. -/
def parseLines (p : Parsing) : List Bytes → Except ConfigException Parsing
  | [] => .ok p
  | line :: lines => do
    let p ← parseLine p line
    parseLines p lines

/-- `CfgFileOptions(InputFile)`, from the text of the file. -/
def parse (text : Bytes) : Except ConfigException CfgFileOptions :=
  (parseLines {} (getlines text [])).map Parsing.cfg

end Zapdos.Utils
