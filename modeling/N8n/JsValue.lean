import Mathlib.Data.Rat.Defs
import N8n.JsText

/-! Values as a node parameter can hold them once its expressions are evaluated. What the
language and luxon compute from a text, and what an object's own methods make of it, is a
parameter. -/

namespace N8n.Js

inductive JsNumber where
  | nan
  | infinity (negative : Bool)
  | finite (value : ℚ)
  deriving DecidableEq

namespace JsNumber

def isNaN : JsNumber → Bool
  | nan => true
  | _ => false

/-- `===` on numbers. -/
def same (x y : JsNumber) : Bool := !x.isNaN && x == y

def less : JsNumber → JsNumber → Bool
  | finite x, finite y => x < y
  | infinity true, infinity false => true
  | infinity true, finite _ => true
  | finite _, infinity false => true
  | _, _ => false

def lessEq (x y : JsNumber) : Bool := x.less y || x.same y

end JsNumber

/-- Values; `Host` are those not modelled further: functions, symbols, bigints and
instances of classes. A `Date` and a luxon `DateTime` are their time, when valid. -/
inductive Value (Host : Type) where
  | undefined
  | null
  | boolean (value : Bool)
  | number (value : JsNumber)
  | string (value : String)
  | array (items : List (Value Host))
  | object (members : List (String × Value Host))
  | date (time : Option ℤ)
  | dateTime (time : Option ℤ)
  | host (value : Host)

inductive JsError where
  | typeError
  | syntaxError
  | rangeError
  deriving DecidableEq

/-- What the language, luxon, lodash and the parser behind `acceptJSObject` make of values and
texts. -/
structure Runtime (Host : Type) where
  hostTypeof : Host → String
  hostTruthy : Host → Bool
  objectToString : Value Host → Except JsError String
  objectToNumber : Value Host → Except JsError JsNumber
  textToNumber : String → JsNumber
  numberToString : JsNumber → String
  stringify : Value Host → Except JsError (Option String)
  parseJson : String → Except JsError (Value Host)
  parseJSObject : String → Except JsError (Value Host)
  fromISO : String → Option ℤ
  fromHTTP : String → Option ℤ
  fromRFC2822 : String → Option ℤ
  fromSQL : String → Option ℤ
  dateParse : String → Option ℤ
  toLowerCase : String → String
  toLocaleLowerCase : String → String
  sameObject : Value Host → Value Host → Bool
  looseLess : Value Host → Value Host → Except JsError Bool
  looseLessEq : Value Host → Value Host → Except JsError Bool
  searchText : Host → Except JsError String
  keyCount : Value Host → ℕ
  testRegExp : String → String → String → Except JsError Bool
  isObject : Value Host → Bool

variable {Host : Type} (rt : Runtime Host)

namespace Value

def typeof : Value Host → String
  | undefined => "undefined"
  | boolean _ => "boolean"
  | number _ => "number"
  | string _ => "string"
  | host value => rt.hostTypeof value
  | _ => "object"

def isNullish : Value Host → Bool
  | undefined | null => true
  | _ => false

def isArray : Value Host → Bool
  | array _ => true
  | _ => false

/-- `Boolean(value)`. -/
def truthy : Value Host → Bool
  | undefined | null => false
  | boolean value => value
  | number value => !value.isNaN && value != .finite 0
  | string value => value != ""
  | host value => rt.hostTruthy value
  | _ => true

/-- `Number.isNaN(value)`. -/
def isNaN : Value Host → Bool
  | number value => value.isNaN
  | _ => false

/-- `String(value)`. -/
def toText : Value Host → Except JsError String
  | undefined => .ok "undefined"
  | null => .ok "null"
  | boolean value => .ok (if value then "true" else "false")
  | number value => .ok (rt.numberToString value)
  | string value => .ok value
  | value => rt.objectToString value

/-- `Number(value)`. -/
def toNumber : Value Host → Except JsError JsNumber
  | undefined => .ok .nan
  | null => .ok (.finite 0)
  | boolean value => .ok (.finite (if value then 1 else 0))
  | number value => .ok value
  | string value => .ok (rt.textToNumber value)
  | value => rt.objectToNumber value

/-- `x === y`. -/
def strictEquals : Value Host → Value Host → Bool
  | undefined, undefined => true
  | null, null => true
  | boolean x, boolean y => x == y
  | number x, number y => x.same y
  | string x, string y => x == y
  | undefined, _ | null, _ | boolean _, _ | number _, _ | string _, _ => false
  | _, undefined | _, null | _, boolean _ | _, number _ | _, string _ => false
  | x, y => rt.sameObject x y

/-- The equality of `includes` on arrays. -/
def sameValueZero (x y : Value Host) : Bool := strictEquals rt x y || (x.isNaN && y.isNaN)

/-- `x < y`. -/
def less : Value Host → Value Host → Except JsError Bool
  | number x, number y => .ok (x.less y)
  | x, y => rt.looseLess x y

/-- `x <= y`. -/
def lessEq : Value Host → Value Host → Except JsError Bool
  | number x, number y => .ok (x.lessEq y)
  | x, y => rt.looseLessEq x y

/-- The text that `includes`, `startsWith` and `endsWith` look for. -/
def toSearchText : Value Host → Except JsError String
  | host value => rt.searchText value
  | value => toText rt value

/-- `Object.keys(value).length`. -/
def keyCount : Value Host → ℕ
  | string value => value.length
  | array items => items.length
  | object members => members.length
  | value => rt.keyCount value

end Value

/-- lodash documents `isObject` as the test for the language type Object: what is no primitive. -/
def Runtime.IsObjectTells (rt : Runtime Host) : Prop :=
  ∀ value : Value Host, rt.isObject value = true ↔
    value.isNullish = false ∧ (value.typeof rt = "object" ∨ value.typeof rt = "function")

end N8n.Js
