import WebServer.RequestParsing
import WebServer.TextLines

/-!
# build_response

The response of the default message callback. The literals of the source are
UTF-8, and a `std::string` is its bytes, so that `size()` counts bytes.
-/
namespace WebServer.Response
open RequestParsing TextLines

/-- The bytes of a literal. -/
def text (s : String) : Bytes := s.toUTF8.data.toList

/-- The locals of `build_response` which the routing decides. -/
structure Page where
  contentType : Bytes
  statusCode : ℕ
  statusMsg : Bytes
  body : Bytes
  deriving DecidableEq

/-- The page for `/` and `/index.html`, with the path and the method of the request. -/
def indexBody (req : HttpRequest) : Bytes :=
  text "\n<!DOCTYPE html>\n<html>\n"++
    text "<head><meta charset='UTF-8'><title>Native C++ Server</title></head>\n<body>\n"++
    text "    <h1>你好！这是原生 C++ Epoll 服务器</h1>\n    <p>路径: "++
    req.path++text "</p>\n    <p>方法: "++
    req.method++text "</p>\n    <hr>\n"++
    text "    <a href=\"/api/data\">点击测试 API</a>\n</body>\n</html>"

def dataBody (req : HttpRequest) : Bytes :=
  text "\x7b\"status\":\"success\", \"message\":\"Hello from Epoll Server!\", \"path\":\""++
    req.path++text "\"\x7d"

def notFoundBody : Bytes :=
  text "<h1>404 Not Found</h1><p>The requested path was not found.</p>"

/-- The routing by `req.path`. -/
def route (req : HttpRequest) : Page :=
  if req.path = text "/" ∨ req.path = text "/index.html" then
    ⟨text "text/html",200,text "OK",indexBody req⟩
  else if req.path = text "/api/data" then
    ⟨text "application/json",200,text "OK",dataBody req⟩
  else ⟨text "text/html",404,text "Not Found",notFoundBody⟩

/-- `std::to_string` is `toDecimal`. -/
def buildResponse (req : HttpRequest) : Bytes :=
  let page := route req
  text "HTTP/1.1 "++toDecimal page.statusCode++text " "++page.statusMsg++text "\r\n"++
    text "Content-Type: "++page.contentType++text "; charset=utf-8\r\n"++
    text "Content-Length: "++toDecimal page.body.length++text "\r\n"++
    text "Connection: close\r\n"++
    text "\r\n"++
    page.body

theorem buildResponse_ne_nil (req : HttpRequest) : buildResponse req ≠ [] := by
  have hstart : text "HTTP/1.1 " ≠ [] := by decide
  simp [buildResponse,hstart]

end WebServer.Response
