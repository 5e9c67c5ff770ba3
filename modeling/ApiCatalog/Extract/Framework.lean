import ApiCatalog.Routes.Table
import ApiCatalog.Text.Case
/-!
# Web frameworks

The frameworks whose routing files are understood, the signs by which the content of a file gives its
framework away, and the ways in which each framework declares routes.
-/

namespace ApiCatalog

inductive Framework where
  | flask
  | fastApi
  | express
  | spring
  | django
  | gin
  | rails
  | unknown
  deriving Repr, DecidableEq

namespace Framework

def name : Framework → String
  | .flask => "flask"
  | .fastApi => "fastapi"
  | .express => "express"
  | .spring => "spring"
  | .django => "django"
  | .gin => "gin"
  | .rails => "rails"
  | .unknown => "unknown"

def all : List Framework := [.flask, .fastApi, .express, .spring, .django, .gin, .rails, .unknown]

def ofName? (name : String) : Option Framework :=
  all.find? fun framework => framework.name == name

structure Sign where
  framework : Framework
  text : String
  /-- The text is looked for in the lowered content. -/
  lowered : Bool

def signs : List Sign := [
  ⟨.flask, "from flask import", false⟩,
  ⟨.flask, "import flask", false⟩,
  ⟨.fastApi, "from fastapi import", false⟩,
  ⟨.fastApi, "import fastapi", false⟩,
  ⟨.express, "express()", false⟩,
  ⟨.express, "require('express')", false⟩,
  ⟨.express, "require(\"express\")", false⟩,
  ⟨.express, "from 'express'", false⟩,
  ⟨.express, "from \"express\"", false⟩,
  ⟨.spring, "@springboot", true⟩,
  ⟨.spring, "import org.springframework", false⟩,
  ⟨.django, "django", true⟩,
  ⟨.gin, "github.com/gin-gonic/gin", false⟩,
  ⟨.gin, "gin.Default()", false⟩,
  ⟨.gin, "gin.New()", false⟩,
  ⟨.rails, "Rails.application.routes", false⟩,
  ⟨.rails, "ActionController", false⟩]

def ofExtension : String → Framework
  | "js" | "ts" => .express
  | "py" => .flask
  | "java" | "kt" => .spring
  | "go" => .gin
  | "rb" => .rails
  | _ => .unknown

/-- The framework of the first sign in the content, or else that of the extension. -/
def detect (content : List Char) (extension : String) : Framework :=
  let lowered := Text.lowercase content
  match signs.find? fun sign => Text.occurs sign.text.toList (if sign.lowered then lowered else content) with
  | some sign => sign.framework
  | none => ofExtension extension

/-! ## Route tables -/

def scripts : List String := ["js", "ts"]

def python : List String := ["py"]

def jvm : List String := ["java", "kt"]

/-- Registrations on a router or app; a handler has to follow the path, since a single argument looks up a
setting. -/
def expressRows : List RouteRow := [
  ⟨"router\\.(get|post|put|delete|patch)\\(\\s*['\"`]([^'\"`]+)['\"`]\\s*,", scripts, .verbThenPath⟩,
  ⟨"app\\.(get|post|put|delete|patch)\\(\\s*['\"`]([^'\"`]+)['\"`]\\s*,", scripts, .verbThenPath⟩]

def flaskRows : List RouteRow := [
  ⟨"@\\w+\\.route\\(\\s*['\"]([^'\"]+)['\"].*methods\\s*=\\s*[\\[(]([^\\])]+)[\\])]", python, .pathThenVerbList⟩,
  ⟨"@\\w+\\.route\\(\\s*['\"]([^'\"]+)['\"]\\s*\\)", python, .pathOnly⟩,
  ⟨"@\\w+\\.(get|post|put|delete|patch)\\(\\s*['\"]([^'\"]+)['\"]", python, .verbThenPath⟩]

def fastApiRows : List RouteRow := [
  ⟨"@app\\.(get|post|put|delete|patch)\\(\\s*['\"]([^'\"]+)['\"]", python, .verbThenPath⟩,
  ⟨"@\\w*router\\.(get|post|put|delete|patch)\\(\\s*['\"]([^'\"]+)['\"]", python, .verbThenPath⟩]

/-- Mapping annotations. -/
def springRows : List RouteRow := [
  ⟨"@(Get|Post|Put|Delete|Patch)Mapping\\(\\s*(?:(?:value|path)\\s*=\\s*)?"
      ++ "[\\[\x7b]?\\s*['\"]([^'\"]+)['\"]",
    jvm, .verbThenPath⟩,
  ⟨"@RequestMapping\\(.*(?:path|value)\\s*=\\s*[\\[\x7b]?\\s*['\"]([^'\"]+)['\"]"
      ++ ".*method\\s*=\\s*[\\[\x7b]?\\s*RequestMethod\\.(\\w+)",
    jvm, .pathThenVerb⟩]

/-- Entries of a list of URL patterns; with regard to case, since a path object is no route. -/
def djangoRows : List RouteRow := [
  ⟨"(?-i)\\bpath\\(\\s*['\"]([^'\"]+)['\"]", python, .pathOnly⟩,
  ⟨"(?-i)\\b(?:re_path|url)\\(\\s*r?['\"]\\^?([^'\"]+)['\"]", python, .pathOnly⟩]

/-- Registrations by verb; with regard to case, since looking up a key is no route. -/
def ginRows : List RouteRow := [
  ⟨"(?-i)\\.(GET|POST|PUT|DELETE|PATCH|HEAD|OPTIONS)\\(\\s*\"([^\"]+)\"", ["go"], .verbThenPath⟩,
  ⟨"(?-i)\\.Handle\\(\\s*\"([A-Z]+)\"\\s*,\\s*\"([^\"]+)\"", ["go"], .verbThenPath⟩]

def railsRows : List RouteRow := [
  ⟨"^[ \\t]*(get|post|put|delete|patch)[ \\t]*\\(?[ \\t]*['\"]([^'\"]+)['\"]", ["rb"], .verbThenPath⟩]

def rows : Framework → List RouteRow
  | .flask => flaskRows
  | .fastApi => fastApiRows
  | .express => expressRows
  | .spring => springRows
  | .django => djangoRows
  | .gin => ginRows
  | .rails => railsRows
  | .unknown => []

def table (framework : Framework) : RouteTable := .ofRows framework.rows

end Framework

end ApiCatalog
