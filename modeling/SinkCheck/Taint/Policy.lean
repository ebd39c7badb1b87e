import SinkCheck.Pool

/-!
# Taint policies

A policy says which calls and fields bring in untrusted data and which calls make data safe.
`UntrustedSources` is the policy given by tables of `class.name`.
-/

namespace SinkCheck

inductive CallTaint where
  /-- The result is untrusted. -/
  | source
  /-- The result is safe whatever went in. -/
  | sanitizer
  /-- The result is tainted iff the receiver or an argument is. -/
  | propagate
deriving DecidableEq

structure Policy where
  classify : Member → CallTaint
  isSourceField : Member → Bool

/-- Conversions such as `toHexString`, whose result counts as clean. There must be something between
the two ends, so `toString` is none. -/
def isStringification (name : String) : Bool :=
  "to".toList.isPrefixOf name.toList && "String".toList.isSuffixOf name.toList && name.utf8ByteSize > 8

structure UntrustedSources where
  methods : List String := []
  fields : List String := []
  sanitizers : List String := []
deriving DecidableEq

namespace UntrustedSources

def withMethod (s : UntrustedSources) (name : String) : UntrustedSources :=
  { s with methods := name :: s.methods }

def withField (s : UntrustedSources) (name : String) : UntrustedSources :=
  { s with fields := name :: s.fields }

def withSanitizer (s : UntrustedSources) (name : String) : UntrustedSources :=
  { s with sanitizers := name :: s.sanitizers }

/-- A name that is both a source and a sanitizer is a source. -/
def policy (s : UntrustedSources) : Policy where
  classify m :=
    if s.methods.contains m.qualified then .source
    else if s.sanitizers.contains m.qualified then .sanitizer
    else .propagate
  isSourceField m := s.fields.contains m.qualified

def requestClasses : List String :=
  ["javax/servlet/ServletRequest", "javax/servlet/http/HttpServletRequest",
    "jakarta/servlet/ServletRequest", "jakarta/servlet/http/HttpServletRequest"]

def requestAccessors : List String :=
  ["getParameter", "getParameterValues", "getParameterMap", "getParameterNames", "getHeader", "getHeaders",
    "getHeaderNames", "getQueryString", "getPathInfo", "getRequestURI", "getRequestURL", "getRemoteUser",
    "getInputStream", "getReader", "getCookies"]

/-- Servlet request accessors and a few readers of console and environment. -/
def webDefaults : UntrustedSources where
  methods :=
    requestClasses.flatMap (fun c => requestAccessors.map fun m => c ++ "." ++ m) ++
      ["javax/servlet/http/Cookie.getValue", "jakarta/servlet/http/Cookie.getValue",
        "java/lang/System.getenv", "java/io/BufferedReader.readLine", "java/util/Scanner.nextLine"]
  sanitizers := ["org/owasp/esapi/Encoder.encodeForSQL", "java/net/URLEncoder.encode"]

end UntrustedSources

end SinkCheck
